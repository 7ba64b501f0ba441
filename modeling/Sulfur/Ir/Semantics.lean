import Sulfur.Ir.Generate

/-!
# The meaning of operations

An operation reads its operands as integers of their types and leaves in its
destination the opcode's result, reduced to the destination's type.  Division
is defined for a non-zero divisor and a representable quotient, and a shift for
an amount below the width.  What a call leaves in the return register and does
to the world outside the function is a parameter.
-/

namespace Sulfur.Ir

open Word

/-- Where the value of an operand lives. -/
inductive Slot
  | temporary (id : Nat)
  | variable (name : String)
  deriving DecidableEq, Repr

/-- The values of the temporaries and the variables. -/
abbrev Store := Slot → Int

/-- A store with the arguments pushed for the next call, and the world that the
called functions act on. -/
structure State (World : Type) where
  store : Store
  params : List Int
  world : World

/-- The functions that a program calls, with the integer that each leaves in the
return register. -/
abbrev Calls (World : Type) :=
  String → List Int → World → Option (Int × World)

/-- No call returns. -/
def noCalls : Calls Unit :=
  fun _ _ _ => none

/-- The number that a string of decimal digits denotes. -/
def decimal (value : String) : Nat :=
  Nat.ofDigitChars 10 value.toList 0

namespace Operand

/-- The slot that an operand names, if it names one. -/
def slot : Operand → Option Slot
  | temporary _ id => some (.temporary id)
  | «variable» _ name => some (.variable name)
  | _ => Option.none

/-- The value of an operand; the operands without one answer `none`. -/
def read (operand : Operand) (store : Store) : Option Int :=
  match operand with
  | temporary type id => some (type.wrap (store (.temporary id)))
  | «variable» type name => some (type.wrap (store (.variable name)))
  | immediate type value => some (type.wrap (decimal value))
  | _ => Option.none

end Operand

/-- Write a slot. -/
def Store.update (store : Store) (slot : Slot) (value : Int) : Store :=
  fun other => if other = slot then value else store other

@[simp]
theorem Store.update_same (store : Store) (slot : Slot) (value : Int) :
    store.update slot value slot = value := by
  simp [Store.update]

theorem Store.update_of_ne {store : Store} {slot other : Slot} {value : Int}
    (differ : other ≠ slot) : store.update slot value other = store other := by
  simp [Store.update, differ]

namespace State

variable {World : Type}

/-- Store a value in the slot of an operand, at the operand's type. -/
def write (state : State World) (dst : Operand) (value : Int) :
    Option (State World) :=
  dst.slot.map fun slot =>
    { state with store := state.store.update slot (dst.valueType.wrap value) }

end State

/-- The integer of a truth value. -/
def ofBool (value : Bool) : Int :=
  if value then 1 else 0

/-- The result of a binary operator, with operands taken at a type.  The two
logical operators work on the bytes of their operands; on the truth values 0
and 1 they are conjunction and disjunction. -/
def binaryResult (op : BinaryOp) (type : ValueType) (a b : Int) : Option Int :=
  let left := type.wrap a
  let right := type.wrap b
  match op with
  | .add => some (type.wrap (left + right))
  | .sub => some (type.wrap (left - right))
  | .mul => some (type.wrap (left * right))
  | .div =>
      if right ≠ 0 ∧ type.InRange (left.tdiv right) then
        some (left.tdiv right)
      else
        none
  | .bitwiseAnd | .logicalAnd =>
      some (type.format.bitwise (fun _ x y => x &&& y) left right)
  | .bitwiseOr | .logicalOr =>
      some (type.format.bitwise (fun _ x y => x ||| y) left right)
  | .bitwiseXor =>
      some (type.format.bitwise (fun _ x y => x ^^^ y) left right)
  | .bitwiseLshift =>
      if 0 ≤ b ∧ b < type.widthBits then
        some (type.wrap (left * 2 ^ b.toNat))
      else
        none
  | .bitwiseRshift =>
      if 0 ≤ b ∧ b < type.widthBits then some (left / 2 ^ b.toNat) else none
  | .relationalEqual => some (ofBool (left = right))
  | .relationalNotEqual => some (ofBool (left ≠ right))
  | .relationalLess => some (ofBool (left < right))
  | .relationalLessEqual => some (ofBool (left ≤ right))
  | .relationalGreater => some (ofBool (left > right))
  | .relationalGreaterEqual => some (ofBool (left ≥ right))

/-- The type at which a binary operation works: a comparison at the type of its
first operand, the others at that of the destination. -/
def operationType (op : BinaryOp) (dst left : Operand) : ValueType :=
  if op.isRelational then left.valueType else dst.valueType

/-- The value that an operation computes from a store. -/
def Operation.result (operation : Operation) (store : Store) : Option Int :=
  match operation.opcode with
  | .binary op => do
      let a ← operation.operand2.read store
      let b ← operation.operand3.read store
      binaryResult op (operationType op operation.operand1 operation.operand2) a b
  | .negate => do
      let a ← operation.operand2.read store
      return operation.operand1.valueType.wrap (-a)
  | .bitwiseNot => do
      let a ← operation.operand2.read store
      return operation.operand1.valueType.wrap (-a - 1)
  | .logicalNot => do
      let a ← operation.operand2.read store
      return operation.operand1.valueType.format.bitwise
        (fun _ x y => x ^^^ y) a 1
  | .assign | .cast => do
      let a ← operation.operand2.read store
      return operation.operand1.valueType.wrap a
  | _ => none

variable {World : Type}

/-- `CALL`: pass the pushed arguments, and store the part of the return register
that is as wide as the destination. -/
def execCall (calls : Calls World) (dst callee : Operand)
    (state : State World) : Option (State World) :=
  match callee with
  | .function _ name => do
      let (register, world) ← calls name state.params state.world
      let returned : State World := { state with params := [], world := world }
      if dst = .none then
        return returned
      else
        returned.write dst register
  | _ => none

/-- One operation that does not jump. -/
def Operation.exec (calls : Calls World) (operation : Operation)
    (state : State World) : Option (State World) :=
  match operation.opcode with
  | .label => some state
  | .param => do
      let value ← operation.operand1.read state.store
      return { state with params := state.params ++ [value] }
  | .call => execCall calls operation.operand1 operation.operand2 state
  | _ => do
      let value ← operation.result state.store
      state.write operation.operand1 value

/-- A sequence of operations that do not jump. -/
def execAll (calls : Calls World) :
    List Operation → State World → Option (State World)
  | [], state => some state
  | operation :: rest, state => do
      let next ← operation.exec calls state
      execAll calls rest next

theorem execAll_append (calls : Calls World) (first second : List Operation)
    (state : State World) :
    execAll calls (first ++ second) state =
      (execAll calls first state).bind (execAll calls second) := by
  induction first generalizing state with
  | nil => rfl
  | cons operation rest inductionHypothesis =>
      simp only [List.cons_append, execAll, Option.bind_eq_bind, inductionHypothesis,
        Option.bind_assoc]

@[simp]
theorem execAll_singleton (calls : Calls World) (operation : Operation)
    (state : State World) :
    execAll calls [operation] state = operation.exec calls state := by
  simp [execAll]

/-- The operations that compute a value and store it. -/
def Opcode.computes : Opcode → Bool
  | .binary _ | .negate | .bitwiseNot | .logicalNot | .assign | .cast => true
  | _ => false

theorem Operation.exec_of_computes {operation : Operation}
    (computes : operation.opcode.computes) (calls : Calls World)
    (state : State World) :
    operation.exec calls state =
      (operation.result state.store).bind
        fun value => state.write operation.operand1 value := by
  obtain ⟨opcode, operand1, operand2, operand3⟩ := operation
  cases opcode <;> first | rfl | cases computes

@[simp]
theorem exec_assign (calls : Calls World) (dst src : Operand)
    (state : State World) :
    Operation.exec calls ⟨.assign, dst, src, .none⟩ state =
      (src.read state.store).bind fun a =>
        state.write dst (dst.valueType.wrap a) := by
  rw [Operation.exec_of_computes rfl]
  simp [Operation.result, Option.bind_assoc]

/-- The value of an operand is one of its type. -/
theorem Operand.read_inRange {operand : Operand} {store : Store} {value : Int}
    (read : operand.read store = some value) :
    operand.valueType.InRange value := by
  cases operand <;> simp only [Operand.read, Option.some.injEq, reduceCtorEq] at read
  all_goals
    rw [← read]
    exact ValueType.wrap_inRange _ _

/-- Reading back what was written gives the written value at the type. -/
theorem State.read_write {state next : State World} {dst : Operand} {value : Int}
    (written : state.write dst value = some next) :
    dst.read next.store = some (dst.valueType.wrap value) := by
  unfold State.write at written
  cases dst with
  | temporary type id =>
      obtain rfl := Option.some.inj written
      simp [Operand.read, Operand.valueType]
  | «variable» type name =>
      obtain rfl := Option.some.inj written
      simp [Operand.read, Operand.valueType]
  | none => cases written
  | immediate type value => cases written
  | label id => cases written
  | function type name => cases written

/-- A binary operator computes a value of the type it works at, or a truth
value. -/
theorem binaryResult_inRange {op : BinaryOp} {type : ValueType} {a b x : Int}
    (relational : op.isRelational = false)
    (result : binaryResult op type a b = some x) : type.InRange x := by
  cases op with
  | add | sub | mul =>
      simp only [binaryResult, Option.some.injEq] at result
      rw [← result]
      exact ValueType.wrap_inRange _ _
  | div =>
      simp only [binaryResult, Option.ite_none_right_eq_some, Option.some.injEq]
        at result
      rw [← result.2]
      exact result.1.2
  | bitwiseLshift =>
      simp only [binaryResult, Option.ite_none_right_eq_some, Option.some.injEq]
        at result
      rw [← result.2]
      exact ValueType.wrap_inRange _ _
  | bitwiseRshift =>
      simp only [binaryResult, Option.ite_none_right_eq_some, Option.some.injEq]
        at result
      rw [← result.2]
      exact Format.InRange.shiftRight (ValueType.wrap_inRange _ _) _
  | bitwiseAnd | bitwiseOr | bitwiseXor | logicalAnd | logicalOr =>
      simp only [binaryResult, Option.some.injEq] at result
      rw [← result]
      exact Format.bitwise_inRange _ _ _ _
  | relationalEqual | relationalNotEqual | relationalLess | relationalLessEqual
  | relationalGreater | relationalGreaterEqual => cases relational

end Sulfur.Ir
