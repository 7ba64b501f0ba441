import Sulfur.Ir.Semantics
import Sulfur.Semantic.Acceptance

/-!
# Evaluation order

The meaning of expressions from left to right: every operand has the value of
the moment of its evaluation, and an increment changes its variable once, at
that moment.  The generated code reads a variable when the operator runs, not
when the operand is evaluated, so that it has this meaning where no operand
evaluated in between changes the variable.
-/

namespace Sulfur.Ir

/-- The variables and the world outside the function. -/
structure Memory (World : Type) where
  vars : String → Int
  world : World

variable {World : Type}

/-- Write a variable. -/
def Memory.set (memory : Memory World) (name : String) (value : Int) :
    Memory World :=
  { memory with
    vars := fun other => if other = name then value else memory.vars other }

/-- What a state holds besides the temporaries. -/
def State.memory (state : State World) : Memory World :=
  ⟨fun name => state.store (.variable name), state.world⟩

@[simp]
theorem State.vars_memory (state : State World) (name : String) :
    state.memory.vars name = state.store (.variable name) := rfl

/-! ## Left-to-right evaluation -/

/-- The value of an operand; a call that returns none has none. -/
def requireValue (evaluated : Option (Option Int × Memory World)) :
    Option (Int × Memory World) :=
  evaluated.bind fun (value, memory) => value.map (·, memory)

@[simp]
theorem requireValue_none :
    requireValue (none : Option (Option Int × Memory World)) = none := rfl

@[simp]
theorem requireValue_void (memory : Memory World) :
    requireValue (some (none, memory)) = none := rfl

@[simp]
theorem requireValue_some (a : Int) (memory : Memory World) :
    requireValue (some (some a, memory)) = some (a, memory) := rfl

/-- The result of a unary operator other than the increments. -/
def unaryResult (op : UnaryOp) (type : ValueType) (a : Int) : Option Int :=
  match op with
  | .negate => some (type.wrap (-a))
  | .bitwiseNot => some (type.wrap (-a - 1))
  | .logicalNot => some (type.format.bitwise (fun _ x y => x ^^^ y) a 1)
  | _ => none

/-- The value that an increment gives its variable. -/
def incremented (op : UnaryOp) (type : ValueType) (old : Int) : Int :=
  type.wrap (if UnaryOp.isIncrement op then old + 1 else old - 1)

@[simp]
theorem wrap_incremented (op : UnaryOp) (type : ValueType) (old : Int) :
    type.wrap (incremented op type old) = incremented op type old := by
  simp [incremented]

/-- An increment of a variable, which gives the old or the new value. -/
def evaluateIncrement (base : Base) (op : UnaryOp) (operand : Expr)
    (memory : Memory World) : Option (Option Int × Memory World) :=
  match operand with
  | .identifier _ name _ id _ =>
      let old := base.resolved.wrap (memory.vars (mangleVariable name id))
      let new := incremented op base.resolved old
      some (some (if UnaryOp.isPostfix op then old else new),
        memory.set (mangleVariable name id) new)
  | _ => none

/-- The value of a literal, in its type. -/
def evaluateLiteral (base : Base) (tokenType : LiteralType) (value : String) :
    Int :=
  base.resolved.wrap <|
    match tokenType with
    | .kwTrue => 1
    | .kwFalse => 0
    | .integer => decimal value

mutual

/-- The left-to-right evaluation of an expression: its value, unless it is a call
that returns none, and the memory after it. -/
def evaluate (calls : Calls World) :
    Expr → Memory World → Option (Option Int × Memory World)
  | .binary base op left right, memory => do
      let (a, afterLeft) ← requireValue (evaluate calls left memory)
      let (b, afterRight) ← requireValue (evaluate calls right afterLeft)
      let type := if op.isRelational then left.resolved else base.resolved
      let x ← binaryResult op type a b
      return (some (base.resolved.wrap x), afterRight)
  | .unary base op operand, memory =>
      if op.isIncrementOrDecrement then
        evaluateIncrement base op operand memory
      else do
        let (a, after) ← requireValue (evaluate calls operand memory)
        let x ← unaryResult op base.resolved a
        return (some (base.resolved.wrap x), after)
  | .cast base _ operand, memory => do
      let (a, after) ← requireValue (evaluate calls operand memory)
      return (some (base.resolved.wrap a), after)
  | .literal base tokenType value, memory =>
      some (some (evaluateLiteral base tokenType value), memory)
  | .identifier base name _ id _, memory =>
      some (some (base.resolved.wrap (memory.vars (mangleVariable name id))),
        memory)
  | .funcCall base callee linkName arguments, memory => do
      let (values, after) ← evaluateArguments calls arguments memory
      let (register, world) ←
        calls (linkName.getD callee.name) values after.world
      let result :=
        if base.resolved = .void then none
        else some (base.resolved.wrap register)
      return (result, { after with world := world })

/-- The values of the arguments of a call, from left to right. -/
def evaluateArguments (calls : Calls World) :
    List Expr → Memory World → Option (List Int × Memory World)
  | [], memory => some ([], memory)
  | argument :: rest, memory => do
      let (value, after) ← requireValue (evaluate calls argument memory)
      let (values, final) ← evaluateArguments calls rest after
      return (value :: values, final)

end

/-! ## Undisturbed operands -/

/-- An operand that is a variable has the same value in both memories. -/
def KeepsValue (operand : Expr) (before after : Memory World) : Prop :=
  match operand with
  | .identifier base name _ id _ =>
      base.resolved.wrap (after.vars (mangleVariable name id)) =
        base.resolved.wrap (before.vars (mangleVariable name id))
  | _ => True

mutual

/-- No variable that is an operand has its value changed by the operands or
arguments evaluated between it and its use. -/
def Undisturbed (calls : Calls World) : Expr → Memory World → Prop
  | .binary _ _ left right, memory =>
      Undisturbed calls left memory ∧
        ∀ a afterLeft, evaluate calls left memory = some (a, afterLeft) →
          Undisturbed calls right afterLeft ∧
            ∀ b afterRight, evaluate calls right afterLeft = some (b, afterRight) →
              KeepsValue left afterLeft afterRight
  | .unary _ _ operand, memory => Undisturbed calls operand memory
  | .cast _ _ operand, memory => Undisturbed calls operand memory
  | .literal .., _ => True
  | .identifier .., _ => True
  | .funcCall _ _ _ arguments, memory => UndisturbedAll calls arguments memory

/-- No argument that is a variable is changed by the arguments after it. -/
def UndisturbedAll (calls : Calls World) : List Expr → Memory World → Prop
  | [], _ => True
  | argument :: rest, memory =>
      Undisturbed calls argument memory ∧
        ∀ value after, evaluate calls argument memory = some (value, after) →
          UndisturbedAll calls rest after ∧
            ∀ values final, evaluateArguments calls rest after =
                some (values, final) →
              KeepsValue argument after final

end

attribute [local simp] evaluate evaluateArguments UndisturbedAll

/-! ## The generated code -/

/-- The temporaries below a bound are the same. -/
def SameTemporaries (bound : Nat) (before after : State World) : Prop :=
  ∀ id < bound, after.store (.temporary id) = before.store (.temporary id)

namespace SameTemporaries

variable {bound : Nat} {first second third : State World}

theorem refl (bound : Nat) (state : State World) :
    SameTemporaries bound state state :=
  fun _ _ => rfl

theorem trans (earlier : SameTemporaries bound first second)
    (later : SameTemporaries bound second third) :
    SameTemporaries bound first third :=
  fun id below => (later id below).trans (earlier id below)

theorem mono {smaller : Nat} (le : smaller ≤ bound)
    (same : SameTemporaries bound first second) :
    SameTemporaries smaller first second :=
  fun id below => same id (below.trans_le le)

end SameTemporaries

/-- Store a value in a temporary. -/
def State.setTemporary (state : State World) (id : Nat) (value : Int) :
    State World :=
  { state with store := state.store.update (.temporary id) value }

/-- Store a value in a variable. -/
def State.setVariable (state : State World) (name : String) (value : Int) :
    State World :=
  { state with store := state.store.update (.variable name) value }

namespace State

@[simp]
theorem write_temporary (state : State World) (type : ValueType) (id : Nat)
    (value : Int) : state.write (.temporary type id) value =
      some (state.setTemporary id (type.wrap value)) := rfl

@[simp]
theorem write_variable (state : State World) (type : ValueType) (name : String)
    (value : Int) : state.write (.variable type name) value =
      some (state.setVariable name (type.wrap value)) := rfl

@[simp]
theorem memory_setVariable (state : State World) (name : String) (value : Int) :
    (state.setVariable name value).memory = state.memory.set name value := by
  simp [memory, Memory.set, setVariable, Store.update]

@[simp]
theorem params_setVariable (state : State World) (name : String) (value : Int) :
    (state.setVariable name value).params = state.params := rfl

@[simp]
theorem temporary_setVariable (state : State World) (name : String) (value : Int)
    (id : Nat) : (state.setVariable name value).store (.temporary id) =
      state.store (.temporary id) := by
  simp [setVariable, Store.update]

@[simp]
theorem variable_setTemporary (state : State World) (id : Nat) (value : Int)
    (name : String) : (state.setTemporary id value).store (.variable name) =
      state.store (.variable name) := by
  simp [setTemporary, Store.update]

@[simp]
theorem memory_setTemporary (state : State World) (id : Nat) (value : Int) :
    (state.setTemporary id value).memory = state.memory := by
  simp [memory, setTemporary, Store.update]

@[simp]
theorem params_setTemporary (state : State World) (id : Nat) (value : Int) :
    (state.setTemporary id value).params = state.params := rfl

@[simp]
theorem temporary_setTemporary (state : State World) (id : Nat) (value : Int) :
    (state.setTemporary id value).store (.temporary id) = value := by
  simp [setTemporary]

theorem sameTemporaries_setTemporary (state : State World) {bound id : Nat}
    (le : bound ≤ id) (value : Int) :
    SameTemporaries bound state (state.setTemporary id value) := by
  intro other below
  refine Store.update_of_ne ?_
  simp only [ne_eq, Slot.temporary.injEq]
  omega

end State

/-- A computing operation into a temporary. -/
theorem exec_temporary (opcode : Opcode) (computes : opcode.computes)
    (calls : Calls World) (type : ValueType) (id : Nat) (operand2 operand3 : Operand)
    (state : State World) :
    Operation.exec calls ⟨opcode, .temporary type id, operand2, operand3⟩ state =
      (Operation.result ⟨opcode, .temporary type id, operand2, operand3⟩
        state.store).map fun x => state.setTemporary id (type.wrap x) := by
  rw [Operation.exec_of_computes computes, Option.map_eq_bind]
  rfl

/-- What the code of an expression does, given the outcome of its evaluation. -/
def Evaluates (calls : Calls World) (code : ExprCode) (nextTemp : Nat)
    (state : State World) : Option (Option Int × Memory World) → Prop
  | some (value, memory) =>
      ∃ final, execAll calls code.operations state = some final ∧
        final.memory = memory ∧ final.params = [] ∧
        SameTemporaries nextTemp state final ∧
        code.result.read final.store = value
  | none => execAll calls code.operations state = none

/-- The temporaries of an expression are numbered from the counter on, its
result among them. -/
structure TemporariesFrom (nextTemp : Nat) (code : ExprCode) : Prop where
  le : nextTemp ≤ code.nextTemp
  result : ∀ type id, code.result = .temporary type id → id < code.nextTemp

theorem temporariesFrom_destination {type : ValueType} {operations : List Operation}
    {nextTemp middle : Nat} (le : nextTemp ≤ middle) :
    TemporariesFrom nextTemp
      ⟨(destination none type middle).1, operations,
        (destination none type middle).2⟩ := by
  refine ⟨?_, ?_⟩
  · simp only [destination]
    omega
  · rintro other id ⟨⟩
    simp [destination]

theorem generateArguments_le (arguments : List Expr)
    (each : ∀ argument ∈ arguments, ∀ start,
      TemporariesFrom start (generateExpressionInto argument none start))
    (nextTemp : Nat) : nextTemp ≤ (generateArguments arguments nextTemp).nextTemp := by
  induction arguments generalizing nextTemp with
  | nil => exact le_rfl
  | cons argument rest inductionHypothesis =>
      rw [List.forall_mem_cons] at each
      exact (each.1 nextTemp).le.trans (inductionHypothesis each.2 _)

theorem temporariesFrom (value : Expr) (nextTemp : Nat) :
    TemporariesFrom nextTemp (generateExpressionInto value none nextTemp) := by
  induction value using Expr.induction generalizing nextTemp with
  | binary base op left right leftHypothesis rightHypothesis =>
      exact temporariesFrom_destination
        ((leftHypothesis nextTemp).le.trans (rightHypothesis _).le)
  | unary base op operand operandHypothesis =>
      have le := (operandHypothesis nextTemp).le
      simp only [generateExpressionInto, generateUnary]
      split
      · unfold generateIncrement
        dsimp only
        split
        · exact ⟨by dsimp only; omega, by rintro type id ⟨⟩; simp⟩
        · exact ⟨by dsimp only; omega, by rintro type id ⟨⟩; simp⟩
      · exact temporariesFrom_destination le
  | cast base target operand operandHypothesis =>
      exact temporariesFrom_destination (operandHypothesis nextTemp).le
  | literal base tokenType text => exact ⟨le_rfl, by rintro type id ⟨⟩⟩
  | identifier base name depth id symbol => exact ⟨le_rfl, by rintro type id ⟨⟩⟩
  | funcCall base callee linkName arguments argumentsHypothesis =>
      have le := generateArguments_le _ argumentsHypothesis nextTemp
      simp only [generateExpressionInto, generateCall]
      split
      · exact ⟨le, by rintro type id ⟨⟩⟩
      · exact temporariesFrom_destination le

/-- Only an identifier is lowered to a variable. -/
theorem identifier_of_result {value : Expr} {nextTemp : Nat} {type : ValueType}
    {name : String}
    (result : (generateExpressionInto value none nextTemp).result =
      .variable type name) :
    ∃ base source depth id symbol, value = .identifier base source depth id symbol ∧
      type = base.resolved ∧ name = mangleVariable source id := by
  cases value with
  | identifier base source depth id symbol =>
      obtain ⟨rfl, rfl⟩ := Operand.variable.inj result
      exact ⟨base, source, depth, id, symbol, rfl, rfl, rfl⟩
  | unary base op operand =>
      simp only [generateExpressionInto, generateUnary, generateIncrement] at result
      split at result
      · split at result <;> cases result
      · cases result
  | funcCall base callee linkName arguments =>
      simp only [generateExpressionInto, generateCall] at result
      split at result <;> cases result
  | binary | cast | literal => cases result

/-- An operand keeps its value where its temporary is kept and its variable has
the same value. -/
theorem read_result_of_keeps {value : Expr} {nextTemp : Nat}
    {before after : State World}
    (same : SameTemporaries (generateExpressionInto value none nextTemp).nextTemp
      before after) (keeps : KeepsValue value before.memory after.memory) :
    (generateExpressionInto value none nextTemp).result.read after.store =
      (generateExpressionInto value none nextTemp).result.read before.store := by
  cases result : (generateExpressionInto value none nextTemp).result with
  | temporary type id =>
      have below := (temporariesFrom value nextTemp).result type id result
      exact congrArg (fun x => some (type.wrap x)) (same id below)
  | «variable» type name =>
      obtain ⟨base, source, depth, id, symbol, rfl, rfl, rfl⟩ :=
        identifier_of_result result
      exact congrArg some keeps
  | none | immediate | label | function => rfl

/-! ## One lemma for each kind of expression -/

section Cases

variable {calls : Calls World} {nextTemp : Nat} {state : State World}

/-- The code of an operand and then one operation into a fresh temporary. -/
theorem evaluates_of_computes (opcode : Opcode) (computes : opcode.computes)
    (type : ValueType) {operations : List Operation} {middle : State World}
    {fresh : Nat} (le : nextTemp ≤ fresh) (operand2 operand3 : Operand)
    (run : execAll calls operations state = some middle) (params : middle.params = [])
    (same : SameTemporaries nextTemp state middle) {result : Option Int}
    (computed : Operation.result ⟨opcode, .temporary type fresh, operand2, operand3⟩
      middle.store = result) (next : Nat) :
    Evaluates calls
      ⟨.temporary type fresh,
        operations ++ [⟨opcode, .temporary type fresh, operand2, operand3⟩], next⟩
      nextTemp state
      (result.map fun x => (some (type.wrap x), middle.memory)) := by
  cases result with
  | none =>
      simp [Evaluates, execAll_append, run, exec_temporary _ computes, computed]
  | some x =>
      refine ⟨middle.setTemporary fresh (type.wrap x), ?_, by simp, by simpa, ?_, ?_⟩
      · simp [execAll_append, run, exec_temporary _ computes, computed]
      · exact same.trans (State.sameTemporaries_setTemporary middle le _)
      · simp [Operand.read]

/-- The operand of a value that exists has the type of its expression. -/
theorem valueType_of_read {value : Expr} {store : Store} {a : Int}
    (read : (generateExpressionInto value none nextTemp).result.read store = some a) :
    (generateExpressionInto value none nextTemp).result.valueType =
      value.resolved := by
  cases void : value.isVoidCall with
  | true =>
      have none := generateExpression_result_of_isVoidCall void nextTemp
      rw [generateExpression] at none
      rw [none] at read
      cases read
  | false => exact (generateExpression_result void nextTemp).1

theorem evaluates_binary {base : Base} {op : BinaryOp} {left right : Expr}
    (leftHypothesis : Evaluates calls (generateExpressionInto left none nextTemp)
      nextTemp state (evaluate calls left state.memory))
    (rightHypothesis : ∀ start after, after.params = [] →
      Undisturbed calls right after.memory →
      Evaluates calls (generateExpressionInto right none start) start after
        (evaluate calls right after.memory))
    (undisturbed : Undisturbed calls (.binary base op left right) state.memory) :
    Evaluates calls (generateExpressionInto (.binary base op left right) none nextTemp)
      nextTemp state (evaluate calls (.binary base op left right) state.memory) := by
  simp only [generateExpressionInto, generateBinary, destination, evaluate]
  have leftTemps := temporariesFrom left nextTemp
  cases leftValue : evaluate calls left state.memory with
  | none =>
      rw [leftValue] at leftHypothesis
      have stuck : execAll calls _ state = none := leftHypothesis
      simp [Evaluates, execAll_append, stuck]
  | some evaluated =>
      obtain ⟨a, afterLeft⟩ := evaluated
      rw [leftValue] at leftHypothesis
      obtain ⟨s, leftRun, rfl, params, leftSame, leftRead⟩ := leftHypothesis
      obtain ⟨rightUndisturbed, keeps⟩ := undisturbed.2 a s.memory leftValue
      have rightTemps := temporariesFrom right
        (generateExpressionInto left none nextTemp).nextTemp
      have rightEvaluates := rightHypothesis
        (generateExpressionInto left none nextTemp).nextTemp s params rightUndisturbed
      cases rightValue : evaluate calls right s.memory with
      | none =>
          rw [rightValue] at rightEvaluates
          have stuck : execAll calls _ s = none := rightEvaluates
          cases a <;>
            simp [Evaluates, execAll_append, leftRun, stuck, rightValue]
      | some evaluated =>
          obtain ⟨b, afterRight⟩ := evaluated
          rw [rightValue] at rightEvaluates
          obtain ⟨t, rightRun, rfl, params, rightSame, rightRead⟩ := rightEvaluates
          have leftKept := read_result_of_keeps rightSame
            (keeps b t.memory rightValue)
          rw [leftRead] at leftKept
          have run : execAll calls
              ((generateExpressionInto left none nextTemp).operations ++
                (generateExpressionInto right none
                  (generateExpressionInto left none nextTemp).nextTemp).operations)
              state = some t := by
            simp [execAll_append, leftRun, rightRun]
          have computed := evaluates_of_computes (.binary op) rfl base.resolved
            (leftTemps.le.trans rightTemps.le)
            (generateExpressionInto left none nextTemp).result
            (generateExpressionInto right none
              (generateExpressionInto left none nextTemp).nextTemp).result run params
            (leftSame.trans (rightSame.mono leftTemps.le)) rfl
            ((generateExpressionInto right none
              (generateExpressionInto left none nextTemp).nextTemp).nextTemp + 1)
          convert computed using 1
          simp only [Operation.result, leftKept, rightRead, Option.bind_eq_bind]
          cases a with
          | none => rfl
          | some a =>
              have type := valueType_of_read leftKept
              simp only [requireValue_some, Option.bind_some, rightValue]
              cases b with
              | none => rfl
              | some b =>
                  simp only [requireValue_some, Option.bind_some, operationType, type,
                    Operand.valueType_temporary, Option.map_eq_bind]
                  rfl

/-- An operation on one operand. -/
theorem evaluates_operand (opcode : Opcode) (computes : opcode.computes)
    (type : ValueType) {operand : Expr}
    (hypothesis : Evaluates calls (generateExpressionInto operand none nextTemp)
      nextTemp state (evaluate calls operand state.memory)) (f : Int → Option Int)
    (result : ∀ dst operand2 store, dst.valueType = type →
      Operation.result ⟨opcode, dst, operand2, .none⟩ store =
        (operand2.read store).bind f) :
    let code := generateExpressionInto operand none nextTemp
    Evaluates calls
      ⟨.temporary type code.nextTemp,
        code.operations ++
          [⟨opcode, .temporary type code.nextTemp, code.result, .none⟩],
        code.nextTemp + 1⟩ nextTemp state
      ((requireValue (evaluate calls operand state.memory)).bind fun (a, after) =>
        (f a).bind fun x => some (some (type.wrap x), after)) := by
  intro code
  have le := (temporariesFrom operand nextTemp).le
  cases value : evaluate calls operand state.memory with
  | none =>
      rw [value] at hypothesis
      have stuck : execAll calls code.operations state = none := hypothesis
      simp [Evaluates, execAll_append, stuck]
  | some evaluated =>
      obtain ⟨a, after⟩ := evaluated
      rw [value] at hypothesis
      obtain ⟨s, run, rfl, params, same, read⟩ := hypothesis
      have computed := evaluates_of_computes opcode computes type le code.result .none
        run params same (result _ code.result s.store rfl) (code.nextTemp + 1)
      convert computed using 1
      rw [read, Option.map_eq_bind]
      cases a <;> rfl

theorem evaluates_unary {base : Base} {op : UnaryOp} {operand : Expr}
    (increment : op.isIncrementOrDecrement = false)
    (hypothesis : Evaluates calls (generateExpressionInto operand none nextTemp)
      nextTemp state (evaluate calls operand state.memory)) :
    Evaluates calls (generateExpressionInto (.unary base op operand) none nextTemp)
      nextTemp state (evaluate calls (.unary base op operand) state.memory) := by
  have computes : (unaryOpcode op).computes := by
    cases op <;> first | rfl | cases increment
  have evaluates := evaluates_operand _ computes base.resolved hypothesis
    (unaryResult op base.resolved) (by
      intro dst operand2 store type
      cases op with
      | negate | bitwiseNot | logicalNot =>
          simp only [unaryOpcode, Operation.result, type]
          rfl
      | prefixIncrement | postfixIncrement | prefixDecrement | postfixDecrement =>
          cases increment)
  simp only [generateExpressionInto, generateUnary, increment, Bool.false_eq_true,
    if_false, destination, evaluate]
  exact evaluates

theorem evaluates_cast {base : Base} {target : ValueType} {operand : Expr}
    (hypothesis : Evaluates calls (generateExpressionInto operand none nextTemp)
      nextTemp state (evaluate calls operand state.memory)) :
    Evaluates calls (generateExpressionInto (.cast base target operand) none nextTemp)
      nextTemp state (evaluate calls (.cast base target operand) state.memory) := by
  have evaluates := evaluates_operand .cast rfl base.resolved hypothesis
    (fun a => some (base.resolved.wrap a)) (by
      intro dst operand2 store type
      simp only [Operation.result, type]
      rfl)
  simp only [Option.bind_some, ValueType.wrap_wrap] at evaluates
  simp only [generateExpressionInto, generateCast, destination, evaluate]
  exact evaluates

/-- The update of an increment, through a temporary. -/
theorem execAll_update (op : UnaryOp) {type : ValueType} (integer : type.isInteger)
    (calls : Calls World) (id : Nat) (name : String) (state : State World) :
    execAll calls
        [⟨.binary (if UnaryOp.isIncrement op then .add else .sub),
            .temporary type id, .variable type name, .immediate type "1"⟩,
          ⟨.assign, .variable type name, .temporary type id, .none⟩] state =
      let new := incremented op type (type.wrap (state.store (.variable name)))
      some ((state.setTemporary id new).setVariable name new) := by
  have one : decimal "1" = 1 := rfl
  have wrapOne : type.wrap 1 = 1 := by
    cases type <;> first | rfl | cases integer
  unfold incremented
  cases UnaryOp.isIncrement op <;>
    simp [execAll, exec_temporary (.binary _) rfl, Operation.result,
      Operand.read, one, wrapOne, binaryResult, operationType, BinaryOp.isRelational]

theorem evaluates_increment {base operandBase : Base} {op : UnaryOp}
    (increment : op.isIncrementOrDecrement) (integer : base.resolved.isInteger)
    (same : base.resolved = operandBase.resolved) {name : String} {depth id : Nat}
    {symbol : Option VarSymbol} (params : state.params = []) :
    Evaluates calls
      (generateExpressionInto
        (.unary base op (.identifier operandBase name depth id symbol)) none nextTemp)
      nextTemp state
      (evaluate calls (.unary base op (.identifier operandBase name depth id symbol))
        state.memory) := by
  simp only [generateExpressionInto, generateUnary, increment, if_true, evaluate,
    evaluateIncrement, generateIncrement, generateIdentifier, ← same, List.nil_append]
  generalize mangleVariable name id = slot
  set old := base.resolved.wrap (state.store (.variable slot)) with oldValue
  cases kept : UnaryOp.isPostfix op with
  | false =>
      refine ⟨_, execAll_update op integer calls nextTemp slot state, by simp, params,
        ?_, by simp [Operand.read]⟩
      intro other below
      rw [State.temporary_setVariable]
      exact State.sameTemporaries_setTemporary state le_rfl _ other below
  | true =>
      -- the old value is saved in a temporary of its own before the update
      have save : Operation.exec calls ⟨.assign, .temporary base.resolved
          (nextTemp + 1), .variable base.resolved slot, .none⟩ state =
            some (state.setTemporary (nextTemp + 1) old) := by
        simp [Operand.read, oldValue]
      have update := execAll_update op integer calls nextTemp slot
        (state.setTemporary (nextTemp + 1) old)
      refine ⟨((state.setTemporary (nextTemp + 1) old).setTemporary nextTemp
        (incremented op base.resolved old)).setVariable slot
          (incremented op base.resolved old), ?_, by simp [oldValue], params, ?_, ?_⟩
      · rw [if_pos rfl, execAll, save]
        simpa [oldValue] using update
      · intro other below
        rw [State.temporary_setVariable]
        have first := State.sameTemporaries_setTemporary state
          (Nat.le_succ nextTemp) old
        exact (first.trans
          (State.sameTemporaries_setTemporary _ le_rfl _)) other below
      · simp [Operand.read, oldValue, State.setTemporary, Store.update]

theorem execAll_paramOperations (calls : Calls World) (state : State World)
    {results : List Operand} {values : List Int}
    (read : results.map (·.read state.store) = values.map some) :
    execAll calls (paramOperations results) state =
      some { state with params := state.params ++ values } := by
  induction results generalizing values state with
  | nil =>
      obtain rfl : values = [] := by simpa using read.symm
      simp [paramOperations, execAll]
  | cons result rest inductionHypothesis =>
      cases values with
      | nil => cases read
      | cons value values =>
          obtain ⟨first, others⟩ := List.cons.inj read
          have pushed := inductionHypothesis
            { state with params := state.params ++ [value] } others
          simp only [paramOperations] at pushed
          simp [paramOperations, execAll, Operation.exec, first, pushed]

theorem execAll_paramOperations_none (calls : Calls World) (state : State World)
    {results : List Operand} {result : Operand} (inResults : result ∈ results)
    (read : result.read state.store = none) :
    execAll calls (paramOperations results) state = none := by
  induction results generalizing state with
  | nil => cases inResults
  | cons first rest inductionHypothesis =>
      simp only [paramOperations, List.map_cons, execAll, Operation.exec]
      rcases List.mem_cons.mp inResults with rfl | inRest
      · simp [read]
      · cases first.read state.store with
        | none => rfl
        | some value =>
            exact inductionHypothesis
              { state with params := state.params ++ [value] } inRest read

/-- What the code of an argument list does. -/
def EvaluatesArguments (calls : Calls World) (code : ArgumentsCode)
    (nextTemp : Nat) (state : State World) :
    Option (List Int × Memory World) → Prop
  | some (values, memory) =>
      ∃ final, execAll calls code.operations state = some final ∧
        final.memory = memory ∧ final.params = [] ∧
        SameTemporaries nextTemp state final ∧
        code.results.map (·.read final.store) = values.map some
  | none =>
      ∀ final, execAll calls code.operations state = some final →
        ∃ result ∈ code.results, result.read final.store = none

theorem evaluates_arguments {arguments : List Expr}
    (each : ∀ argument ∈ arguments, ∀ start before, before.params = [] →
      Undisturbed calls argument before.memory →
      Evaluates calls (generateExpressionInto argument none start) start before
        (evaluate calls argument before.memory))
    (params : state.params = [])
    (undisturbed : UndisturbedAll calls arguments state.memory) :
    EvaluatesArguments calls (generateArguments arguments nextTemp) nextTemp state
      (evaluateArguments calls arguments state.memory) := by
  induction arguments generalizing nextTemp state with
  | nil => exact ⟨state, rfl, rfl, params, .refl _ _, rfl⟩
  | cons argument rest inductionHypothesis =>
      rw [List.forall_mem_cons] at each
      have first := each.1 nextTemp state params undisturbed.1
      have firstTemps := temporariesFrom argument nextTemp
      simp only [generateArguments, evaluateArguments]
      cases value : evaluate calls argument state.memory with
      | none =>
          rw [value] at first
          have stuck : execAll calls _ state = none := first
          intro final run
          simp [execAll_append, stuck] at run
      | some evaluated =>
          obtain ⟨a, afterFirst⟩ := evaluated
          rw [value] at first
          obtain ⟨s, firstRun, rfl, params, firstSame, firstRead⟩ := first
          obtain ⟨restUndisturbed, keeps⟩ := undisturbed.2 a s.memory value
          have others : EvaluatesArguments calls (generateArguments rest
              (generateExpressionInto argument none nextTemp).nextTemp) _ s _ :=
            inductionHypothesis each.2 params restUndisturbed
          cases restValues : evaluateArguments calls rest s.memory with
          | none =>
              rw [restValues] at others
              have missing : ∀ final, execAll calls ((generateExpressionInto argument
                  none nextTemp).operations ++ (generateArguments rest
                    (generateExpressionInto argument none
                      nextTemp).nextTemp).operations) state = some final →
                  ∃ result ∈ (generateExpressionInto argument none
                    nextTemp).result :: (generateArguments rest
                      (generateExpressionInto argument none
                        nextTemp).nextTemp).results,
                    result.read final.store = none := by
                intro final run
                rw [execAll_append, firstRun, Option.bind_some] at run
                obtain ⟨result, inRest, read⟩ := others final run
                exact ⟨result, List.mem_cons_of_mem _ inRest, read⟩
              cases a with
              | none => exact missing
              | some a =>
                  simp only [requireValue_some, Option.bind_eq_bind,
                    Option.bind_some, restValues]
                  exact missing
          | some evaluated =>
              obtain ⟨values, afterRest⟩ := evaluated
              rw [restValues] at others
              obtain ⟨t, restRun, rfl, params, restSame, restRead⟩ := others
              have kept := read_result_of_keeps restSame (keeps values t.memory restValues)
              rw [firstRead] at kept
              have run : execAll calls ((generateExpressionInto argument none
                  nextTemp).operations ++ (generateArguments rest
                    (generateExpressionInto argument none
                      nextTemp).nextTemp).operations) state = some t := by
                rw [execAll_append, firstRun, Option.bind_some, restRun]
              cases a with
              | none =>
                  intro final finalRun
                  obtain rfl := Option.some.inj (run.symm.trans finalRun)
                  exact ⟨_, List.mem_cons_self, kept⟩
              | some a =>
                  simp only [requireValue_some, Option.bind_eq_bind,
                    Option.bind_some, restValues]
                  refine ⟨t, run, rfl, params,
                    firstSame.trans (restSame.mono firstTemps.le), ?_⟩
                  simp [kept, restRead]

theorem evaluates_call {base : Base} {callee : Callee} {linkName : Option String}
    {arguments : List Expr}
    (argumentsEvaluate : EvaluatesArguments calls (generateArguments arguments nextTemp)
      nextTemp state (evaluateArguments calls arguments state.memory)) :
    Evaluates calls
      (generateExpressionInto (.funcCall base callee linkName arguments) none nextTemp)
      nextTemp state
      (evaluate calls (.funcCall base callee linkName arguments) state.memory) := by
  have le := generateArguments_le arguments
    (fun argument _ start => temporariesFrom argument start) nextTemp
  simp only [generateExpressionInto, generateCall, evaluate]
  generalize generateArguments arguments nextTemp = code at argumentsEvaluate le ⊢
  cases evaluated : evaluateArguments calls arguments state.memory with
  | none =>
      rw [evaluated] at argumentsEvaluate
      change execAll calls _ state = none
      cases run : execAll calls code.operations state with
      | none => simp [execAll_append, run]
      | some middle =>
          obtain ⟨result, inResults, read⟩ := argumentsEvaluate middle run
          simp [execAll_append, run, execAll_paramOperations_none _ _ inResults read]
  | some outcome =>
      obtain ⟨values, afterArguments⟩ := outcome
      rw [evaluated] at argumentsEvaluate
      obtain ⟨s, run, rfl, params, same, read⟩ := argumentsEvaluate
      have pushed := execAll_paramOperations calls s read
      rw [params, List.nil_append] at pushed
      cases called : calls (linkName.getD callee.name) values s.world with
      | none =>
          have unknown : calls (linkName.getD callee.name) values s.memory.world =
            none := called
          simp [Evaluates, execAll_append, run, pushed, Operation.exec, execCall, called,
            unknown]
      | some returned =>
          obtain ⟨register, world⟩ := returned
          have known : calls (linkName.getD callee.name) values s.memory.world =
            some (register, world) := called
          simp only [Option.bind_eq_bind, Option.bind_some, known]
          by_cases void : base.resolved = .void
          · simp only [void, if_true]
            refine ⟨{ s with params := [], world := world }, ?_, rfl, rfl, same, rfl⟩
            simp [execAll_append, run, pushed, Operation.exec, execCall, called]
          · simp only [void, if_false, destination]
            refine ⟨State.setTemporary { s with params := [], world := world }
              code.nextTemp (base.resolved.wrap register), ?_, ?_, rfl, ?_, ?_⟩
            · simp [execAll_append, run, pushed, Operation.exec, execCall, called]
            · rw [State.memory_setTemporary]
              rfl
            · exact same.trans
                (State.sameTemporaries_setTemporary
                  { s with params := [], world := world } le _)
            · simp [Operand.read]

end Cases

/-! ## The whole expression -/

/-- The code of a typed expression evaluates it, where no operand is
disturbed. -/
theorem evaluates {calls : Calls World} {s : Semantic} {value : Expr}
    (typed : value.Typed s) (nextTemp : Nat) {state : State World}
    (params : state.params = [])
    (undisturbed : Undisturbed calls value state.memory) :
    Evaluates calls (generateExpressionInto value none nextTemp) nextTemp state
      (evaluate calls value state.memory) := by
  induction value using Expr.induction generalizing nextTemp state with
  | binary base op left right leftHypothesis rightHypothesis =>
      obtain ⟨leftTyped, rightTyped, -⟩ := typed
      exact evaluates_binary
        (leftHypothesis leftTyped nextTemp params undisturbed.1)
        (fun start after params undisturbed =>
          rightHypothesis rightTyped start params undisturbed) undisturbed
  | unary base op operand operandHypothesis =>
      obtain ⟨operandTyped, rule, target⟩ := typed
      cases increment : op.isIncrementOrDecrement with
      | false =>
          exact evaluates_unary increment
            (operandHypothesis operandTyped nextTemp params undisturbed)
      | true =>
          have types : operand.resolved.isInteger ∧
              base.resolved = operand.resolved := by
            cases op <;> first | exact rule | cases increment
          have isVariable := target increment
          cases operand with
          | identifier operandBase name depth id symbol =>
              exact evaluates_increment increment (types.2 ▸ types.1) types.2 params
          | _ => cases isVariable
  | cast base target operand operandHypothesis =>
      exact evaluates_cast (operandHypothesis typed.1 nextTemp params undisturbed)
  | literal base tokenType text =>
      refine ⟨state, rfl, rfl, params, .refl _ _, ?_⟩
      have one : decimal "1" = 1 := rfl
      have zero : decimal "0" = 0 := rfl
      cases tokenType <;>
        simp [generateExpressionInto, generateLiteral, Operand.read,
          evaluateLiteral, one, zero]
  | identifier base name depth id symbol =>
      exact ⟨state, rfl, rfl, params, .refl _ _, rfl⟩
  | funcCall base callee linkName arguments argumentsHypothesis =>
      obtain ⟨func, -, -, -, argumentsTyped⟩ := typed
      refine evaluates_call (evaluates_arguments ?_ params undisturbed)
      intro argument inArguments start before params undisturbed
      exact argumentsHypothesis argument inArguments
        (argumentsTyped.typed argument inArguments) start params undisturbed

/-- What a run of an expression's code shows: the value of the result and the
memory. -/
def observe (code : ExprCode) (final : State World) :
    Option Int × Memory World :=
  (code.result.read final.store, final.memory)

/-- The code of an accepted expression gives the value and the memory of the
left-to-right evaluation, from every state in which no operand is disturbed. -/
theorem generateExpression_evaluates {value : Expr} (accepted : value.Accepted)
    (calls : Calls World) (nextTemp : Nat) {state : State World}
    (params : state.params = [])
    (undisturbed : Undisturbed calls value state.memory) :
    (execAll calls (generateExpression value nextTemp).operations state).map
        (observe (generateExpression value nextTemp)) =
      evaluate calls value state.memory := by
  obtain ⟨s, -, typed⟩ := accepted
  have evaluates := evaluates typed nextTemp params undisturbed
  cases outcome : evaluate calls value state.memory with
  | none =>
      rw [outcome] at evaluates
      have stuck : execAll calls (generateExpression value nextTemp).operations
        state = none := evaluates
      rw [stuck, Option.map_none]
  | some pair =>
      obtain ⟨a, memory⟩ := pair
      rw [outcome] at evaluates
      obtain ⟨final, run, rfl, -, -, read⟩ := evaluates
      have ran : execAll calls (generateExpression value nextTemp).operations
        state = some final := run
      rw [ran, Option.map_some, observe, generateExpression, read]

/-! ### A criterion on the tree -/

mutual

/-- Some increment in the expression changes the variable. -/
def increments (slot : String) : Expr → Bool
  | .binary _ _ left right => increments slot left || increments slot right
  | .unary _ op operand =>
      increments slot operand ||
        match op.isIncrementOrDecrement, operand with
        | true, .identifier _ name _ id _ => mangleVariable name id = slot
        | _, _ => false
  | .cast _ _ operand => increments slot operand
  | .literal .. => false
  | .identifier .. => false
  | .funcCall _ _ _ arguments => incrementsAny slot arguments

/-- Some increment in a list of expressions changes the variable. -/
def incrementsAny (slot : String) : List Expr → Bool
  | [] => false
  | argument :: rest => increments slot argument || incrementsAny slot rest

end

/-- If the operand is a variable, the others do not increment it. -/
def settledBefore (operand : Expr) (others : List Expr) : Bool :=
  match operand with
  | .identifier _ name _ id _ => !incrementsAny (mangleVariable name id) others
  | _ => true

mutual

/-- No operand is a variable that a later operand increments. -/
def settled : Expr → Bool
  | .binary _ _ left right =>
      settled left && settled right && settledBefore left [right]
  | .unary _ _ operand => settled operand
  | .cast _ _ operand => settled operand
  | .literal .. => true
  | .identifier .. => true
  | .funcCall _ _ _ arguments => settledAll arguments

/-- No argument is a variable that a later argument increments. -/
def settledAll : List Expr → Bool
  | [] => true
  | argument :: rest =>
      settled argument && settledAll rest && settledBefore argument rest

end

theorem vars_of_requireValue {evaluated : Option (Option Int × Memory World)}
    {a : Int} {memory : Memory World}
    (value : requireValue evaluated = some (a, memory)) :
    evaluated = some (some a, memory) := by
  match evaluated, value with
  | some (some a, memory), value =>
      obtain ⟨rfl, rfl⟩ := Prod.mk.inj (Option.some.inj value)
      rfl

/-- Only increments change a variable. -/
theorem vars_evaluateArguments {calls : Calls World} (slot : String)
    {arguments : List Expr}
    (each : ∀ argument ∈ arguments, increments slot argument = false →
      ∀ memory value final, evaluate calls argument memory = some (value, final) →
        final.vars slot = memory.vars slot)
    (none : incrementsAny slot arguments = false) {memory final : Memory World}
    {values : List Int}
    (run : evaluateArguments calls arguments memory = some (values, final)) :
    final.vars slot = memory.vars slot := by
  induction arguments generalizing memory values with
  | nil =>
      obtain ⟨-, rfl⟩ := Prod.mk.inj (Option.some.inj run)
      rfl
  | cons argument rest inductionHypothesis =>
      rw [List.forall_mem_cons] at each
      obtain ⟨own, others⟩ := Bool.or_eq_false_iff.mp none
      obtain ⟨⟨a, after⟩, first, run⟩ := Option.bind_eq_some_iff.mp run
      obtain ⟨⟨more, last⟩, second, run⟩ := Option.bind_eq_some_iff.mp run
      obtain ⟨-, rfl⟩ := Prod.mk.inj (Option.some.inj run)
      exact (inductionHypothesis each.2 others second).trans
        (each.1 own _ _ _ (vars_of_requireValue first))

theorem vars_evaluate {calls : Calls World} {slot : String} {value : Expr}
    (none : increments slot value = false) {memory final : Memory World}
    {result : Option Int}
    (run : evaluate calls value memory = some (result, final)) :
    final.vars slot = memory.vars slot := by
  induction value using Expr.induction generalizing memory final result with
  | binary base op left right leftHypothesis rightHypothesis =>
      obtain ⟨leftNone, rightNone⟩ := Bool.or_eq_false_iff.mp none
      obtain ⟨⟨a, afterLeft⟩, first, run⟩ := Option.bind_eq_some_iff.mp run
      obtain ⟨⟨b, afterRight⟩, second, run⟩ := Option.bind_eq_some_iff.mp run
      obtain ⟨x, -, run⟩ := Option.bind_eq_some_iff.mp run
      obtain ⟨-, rfl⟩ := Prod.mk.inj (Option.some.inj run)
      exact (rightHypothesis rightNone (vars_of_requireValue second)).trans
        (leftHypothesis leftNone (vars_of_requireValue first))
  | unary base op operand operandHypothesis =>
      obtain ⟨operandNone, own⟩ := Bool.or_eq_false_iff.mp none
      unfold evaluate at run
      cases increment : op.isIncrementOrDecrement with
      | true =>
          rw [increment] at run own
          cases operand with
          | identifier operandBase name depth id symbol =>
              obtain ⟨-, rfl⟩ := Prod.mk.inj (Option.some.inj run)
              have other : slot ≠ mangleVariable name id := by
                simpa [eq_comm] using own
              simp [Memory.set, other]
          | _ => cases run
      | false =>
          rw [increment, if_neg Bool.false_ne_true] at run
          obtain ⟨⟨a, after⟩, first, run⟩ := Option.bind_eq_some_iff.mp run
          obtain ⟨x, -, run⟩ := Option.bind_eq_some_iff.mp run
          obtain ⟨-, rfl⟩ := Prod.mk.inj (Option.some.inj run)
          exact operandHypothesis operandNone (vars_of_requireValue first)
  | cast base target operand operandHypothesis =>
      obtain ⟨⟨a, after⟩, first, run⟩ := Option.bind_eq_some_iff.mp run
      obtain ⟨-, rfl⟩ := Prod.mk.inj (Option.some.inj run)
      exact operandHypothesis none (vars_of_requireValue first)
  | literal base tokenType text =>
      obtain ⟨-, rfl⟩ := Prod.mk.inj (Option.some.inj run)
      rfl
  | identifier base name depth id symbol =>
      obtain ⟨-, rfl⟩ := Prod.mk.inj (Option.some.inj run)
      rfl
  | funcCall base callee linkName arguments argumentsHypothesis =>
      obtain ⟨⟨values, after⟩, first, run⟩ := Option.bind_eq_some_iff.mp run
      obtain ⟨⟨register, world⟩, -, run⟩ := Option.bind_eq_some_iff.mp run
      obtain ⟨-, rfl⟩ := Prod.mk.inj (Option.some.inj run)
      have same := vars_evaluateArguments slot
        (fun argument inArguments own _ _ _ run =>
          argumentsHypothesis argument inArguments own run) none first
      exact same

theorem keepsValue_of_settledBefore {operand : Expr} {others : List Expr}
    (settles : settledBefore operand others) {before after : Memory World}
    (same : ∀ slot, incrementsAny slot others = false →
      after.vars slot = before.vars slot) :
    KeepsValue operand before after := by
  cases operand with
  | identifier base name depth id symbol =>
      have none : incrementsAny (mangleVariable name id) others = false := by
        simpa [settledBefore] using settles
      exact congrArg base.resolved.wrap (same _ none)
  | binary | unary | cast | literal | funcCall => trivial

theorem undisturbedAll_of_settledAll {calls : Calls World} {arguments : List Expr}
    (each : ∀ argument ∈ arguments, settled argument →
      ∀ memory, Undisturbed calls argument memory)
    (settles : settledAll arguments) (memory : Memory World) :
    UndisturbedAll calls arguments memory := by
  induction arguments generalizing memory with
  | nil => trivial
  | cons argument rest inductionHypothesis =>
      rw [List.forall_mem_cons] at each
      obtain ⟨⟨own, others⟩, before⟩ : (settled argument ∧ settledAll rest) ∧
          settledBefore argument rest := by
        simpa [settledAll] using settles
      refine ⟨each.1 own memory, fun value after _ =>
        ⟨inductionHypothesis each.2 others after, fun values final run => ?_⟩⟩
      exact keepsValue_of_settledBefore before fun slot none =>
        vars_evaluateArguments _ (fun _ _ own _ _ _ run => vars_evaluate own run)
          none run

/-- In a settled expression no operand is ever disturbed. -/
theorem undisturbed_of_settled {calls : Calls World} {value : Expr}
    (settles : settled value) (memory : Memory World) :
    Undisturbed calls value memory := by
  induction value using Expr.induction generalizing memory with
  | binary base op left right leftHypothesis rightHypothesis =>
      obtain ⟨⟨leftSettled, rightSettled⟩, before⟩ :
          (settled left ∧ settled right) ∧ settledBefore left [right] := by
        simpa [settled] using settles
      refine ⟨leftHypothesis leftSettled memory, fun a afterLeft _ =>
        ⟨rightHypothesis rightSettled afterLeft, fun b afterRight run => ?_⟩⟩
      refine keepsValue_of_settledBefore before fun slot none => ?_
      exact vars_evaluate (by simpa [incrementsAny] using none) run
  | unary base op operand operandHypothesis =>
      exact operandHypothesis settles memory
  | cast base target operand operandHypothesis =>
      exact operandHypothesis settles memory
  | literal | identifier => trivial
  | funcCall base callee linkName arguments argumentsHypothesis =>
      exact undisturbedAll_of_settledAll (fun argument inArguments own memory =>
        argumentsHypothesis argument inArguments own memory) settles memory

/-! ### A variable changed after it was an operand -/

/-- A variable that is incremented after it was an operand, and before. -/
def orderSource : String :=
  "fn main() i32 { mut i32 x = 1; x = x++ + x; return x + x++; }"

theorem isSome_compileFrontend_order :
    (compileFrontend orderSource "main.su" {}).isSome := by
  decide

/-- The analysis of that program. -/
def orderAnalysis : ProgramAnalysis :=
  (compileFrontend orderSource "main.su" {}).get isSome_compileFrontend_order

theorem accepted_order :
    ∃ program, Accepted program "main.su" {} [] orderAnalysis :=
  accepted_of_compileFrontend (Option.some_get _).symm

theorem length_expressions_order :
    orderAnalysis.program.expressions.length = 3 := by
  decide

/-- The increment of a variable plus the variable. -/
def settledSum : Expr :=
  orderAnalysis.program.expressions.get
    ⟨1, by rw [length_expressions_order]; decide⟩

/-- The variable plus its increment. -/
def disturbedSum : Expr :=
  orderAnalysis.program.expressions.get
    ⟨2, by rw [length_expressions_order]; decide⟩

/-- Every variable is 1. -/
def ones : State Unit :=
  ⟨fun _ => 1, [], ()⟩

/-- The generated code adds the new value of the variable to the old one. -/
theorem generateExpression_disturbed_differs :
    (∃ program, Accepted program "main.su" {} [] orderAnalysis) ∧
      disturbedSum ∈ orderAnalysis.program.expressions ∧
      ((execAll noCalls (generateExpression disturbedSum 0).operations ones).map
          fun final => (observe (generateExpression disturbedSum 0) final).1) =
        some (some 3) ∧
      ((evaluate noCalls disturbedSum ones.memory).map Prod.fst) =
        some (some 2) :=
  ⟨accepted_order, List.get_mem _ _, by decide, by decide⟩

theorem generateExpression_evaluates_settled :
    (execAll noCalls (generateExpression settledSum 0).operations ones).map
        (observe (generateExpression settledSum 0)) =
      evaluate noCalls settledSum ones.memory := by
  obtain ⟨program, accepted⟩ := accepted_order
  exact generateExpression_evaluates
    (accepted.accepted_expression (List.get_mem _ _)) noCalls 0 rfl
    (undisturbed_of_settled (by decide) _)

end Sulfur.Ir
