import Sulfur.Ir.Evaluation
import Sulfur.Semantic.Domain

/-!
# Truth values

An expression of type `bool` is used as 0 or 1 by the conditions and the logical
operators of the back end.  It has one of these values where every operator has
operands of its domain; a shifted `bool` is what leaves them.
-/

namespace Sulfur.Ir

variable {World : Type}

/-- The values of type `bool`. -/
def IsTruth (value : Int) : Prop :=
  value = 0 ∨ value = 1

instance (value : Int) : Decidable (IsTruth value) :=
  inferInstanceAs (Decidable (value = 0 ∨ value = 1))

/-- The visible variables and parameters of type `bool` hold 0 or 1. -/
def HoldsTruths (s : Semantic) (memory : Memory World) : Prop :=
  ∀ name found, s.scope.lookup name = some found → found.type = .bool →
    IsTruth (memory.vars (mangleVariable name found.id))

/-- The visible functions of type `bool` return 0 or 1. -/
def ReturnsTruths (s : Semantic) (calls : Calls World) : Prop :=
  ∀ name func, s.funcs.lookup name = some func → func.returnType = .bool →
    ∀ values world register after,
      calls func.linkName values world = some (register, after) →
        IsTruth (ValueType.bool.wrap register)

theorem isTruth_ofBool (value : Bool) : IsTruth (ofBool value) := by
  cases value <;> decide

theorem IsTruth.wrap {value : Int} (truth : IsTruth value) :
    IsTruth (ValueType.bool.wrap value) := by
  rcases truth with rfl | rfl <;> decide

/-- The operators of type `bool` other than the shifts give truth values. -/
theorem isTruth_binaryResult {op : BinaryOp} {type : ValueType} {a b x : Int}
    (logical : op.isLogical → type = .bool ∧ IsTruth a ∧ IsTruth b)
    (class_ : op.isLogical || op.isRelational)
    (result : binaryResult op type a b = some x) : IsTruth x := by
  have compares (value : Bool) (same : some (ofBool value) = some x) : IsTruth x := by
    cases same
    exact isTruth_ofBool value
  cases op with
  | logicalAnd =>
      obtain ⟨rfl, first, second⟩ := logical rfl
      cases result
      rcases first with rfl | rfl <;> rcases second with rfl | rfl <;> decide
  | logicalOr =>
      obtain ⟨rfl, first, second⟩ := logical rfl
      cases result
      rcases first with rfl | rfl <;> rcases second with rfl | rfl <;> decide
  | relationalEqual => exact compares _ result
  | relationalNotEqual => exact compares _ result
  | relationalLess => exact compares _ result
  | relationalLessEqual => exact compares _ result
  | relationalGreater => exact compares _ result
  | relationalGreaterEqual => exact compares _ result
  | _ => simp [BinaryOp.isLogical, BinaryOp.isRelational] at class_

/-- An operator of type `bool` is a comparison or a logical one. -/
theorem isTruthOperator_of_bool {op : BinaryOp} {result left right : ValueType}
    (typed : op.Typed result left right) (domain : op.Admits left right)
    (bool : result = .bool) : op.isLogical || op.isRelational := by
  have kind := typed.kind
  have integers := typed.admits_iff.mp domain
  rw [bool] at kind
  by_contra other
  rw [if_neg other] at kind
  split at kind
  · rename_i shift
    rw [(integers shift).1] at kind
    cases kind
  · cases kind

/-- An increment changes a variable of an integer type, so that the truth values
stay. -/
theorem HoldsTruths.set {s : Semantic} {memory : Memory World} (holds : HoldsTruths s memory)
    {name : String} {found : VarSymbol} (lookup : s.scope.lookup name = some found)
    (integer : found.type.isInteger) (value : Int) :
    HoldsTruths s (memory.set (mangleVariable name found.id) value) := by
  intro other otherFound otherLookup bool
  have distinct : mangleVariable other otherFound.id ≠ mangleVariable name found.id := by
    intro same
    obtain ⟨rfl, -⟩ := mangleVariable_injective same
    cases lookup.symm.trans otherLookup
    rw [bool] at integer
    cases integer
  simpa [Memory.set, distinct] using holds other otherFound otherLookup bool

/-- The operators of one boolean operand give truth values. -/
theorem isTruth_unaryResult {op : UnaryOp} {result operand : ValueType} {a x : Int}
    (typed : op.Typed result operand) (bool : result = .bool)
    (truth : operand = .bool → IsTruth a)
    (computed : unaryResult op .bool a = some x) : IsTruth x := by
  have kind := typed.kind
  rw [bool] at kind
  cases op with
  | logicalNot =>
      cases computed
      rcases truth typed.1 with rfl | rfl <;> decide
  | _ => cases kind

theorem evaluateIncrement_holds {s : Semantic} {base : Base} {op : UnaryOp} {operand : Expr}
    (typed : (Expr.unary base op operand).Typed s) (increment : op.isIncrementOrDecrement)
    {memory : Memory World} (holds : HoldsTruths s memory) {result : Option Int}
    {after : Memory World}
    (evaluated : evaluateIncrement base op operand memory = some (result, after)) :
    HoldsTruths s after ∧ base.resolved.isInteger := by
  obtain ⟨operandTyped, rule, _⟩ := typed
  have integer : operand.resolved.isInteger ∧ base.resolved = operand.resolved := by
    cases op <;> first | exact rule | cases increment
  cases operand with
  | identifier operandBase name depth id symbol =>
      obtain ⟨found, lookup, _, resolved, _, rfl, _⟩ := operandTyped
      have declared : found.type.isInteger := resolved ▸ integer.1
      cases evaluated
      exact ⟨holds.set lookup declared _, integer.2 ▸ integer.1⟩
  | _ => cases evaluated

/-- What an evaluation keeps, and what it answers at type `bool`. -/
def Truthful (s : Semantic) (node : Expr) (result : Option Int) (after : Memory World) : Prop :=
  HoldsTruths s after ∧
    (node.resolved = .bool → ∀ value, result = some value → IsTruth value)

theorem requireValue_eq_some {evaluated : Option (Option Int × Memory World)} {a : Int}
    {memory : Memory World} :
    requireValue evaluated = some (a, memory) ↔ evaluated = some (some a, memory) := by
  match evaluated with
  | none => simp
  | some (none, other) => simp
  | some (some b, other) => simp

theorem evaluateArguments_holds {s : Semantic} {calls : Calls World} {arguments : List Expr}
    (each : ∀ argument ∈ arguments, ∀ memory result after, HoldsTruths s memory →
      evaluate calls argument memory = some (result, after) → HoldsTruths s after)
    {memory : Memory World} (holds : HoldsTruths s memory) {values : List Int}
    {after : Memory World}
    (evaluated : evaluateArguments calls arguments memory = some (values, after)) :
    HoldsTruths s after := by
  induction arguments generalizing memory values with
  | nil =>
      cases evaluated
      exact holds
  | cons argument rest inductionHypothesis =>
      rw [List.forall_mem_cons] at each
      simp only [evaluateArguments, Option.bind_eq_bind, Option.bind_eq_some_iff,
        Prod.exists] at evaluated
      obtain ⟨value, between, first, others, final, second, same⟩ := evaluated
      cases same
      have between := each.1 memory _ _ holds (requireValue_eq_some.mp first)
      exact inductionHypothesis each.2 between second

/-- An accepted expression that keeps to the domains keeps the truth values of
its variables and has one itself where its type is `bool`. -/
theorem evaluate_truthful {s : Semantic} {calls : Calls World} (returns : ReturnsTruths s calls)
    {node : Expr} (typed : node.Typed s) (inDomain : node.InDomain)
    {memory : Memory World} (holds : HoldsTruths s memory) {result : Option Int}
    {after : Memory World} (evaluated : evaluate calls node memory = some (result, after)) :
    Truthful s node result after := by
  induction node using Expr.induction generalizing memory result after with
  | binary base op left right leftHypothesis rightHypothesis =>
      simp only [evaluate, Option.bind_eq_bind, Option.bind_eq_some_iff, Prod.exists,
        requireValue_eq_some] at evaluated
      obtain ⟨a, between, first, b, final, second, x, computed, same⟩ := evaluated
      cases same
      obtain ⟨between, leftTruth⟩ := leftHypothesis typed.1 inDomain.1 holds first
      obtain ⟨final, rightTruth⟩ := rightHypothesis typed.2.1 inDomain.2.1 between second
      refine ⟨final, fun (bool : base.resolved = .bool) value same => ?_⟩
      cases same
      have class_ := isTruthOperator_of_bool typed.2.2 inDomain.2.2 bool
      rw [bool] at computed ⊢
      refine (isTruth_binaryResult (fun logical => ?_) class_ computed).wrap
      obtain ⟨leftBool, rightBool⟩ :=
        (if_pos logical).mp inDomain.2.2
      have relational : op.isRelational = false := by
        revert logical
        cases op <;> decide
      exact ⟨by simp [relational], leftTruth leftBool a rfl, rightTruth rightBool b rfl⟩
  | unary base op operand operandHypothesis =>
      simp only [evaluate] at evaluated
      split at evaluated
      · rename_i increment
        obtain ⟨kept, integer⟩ := evaluateIncrement_holds typed increment holds evaluated
        refine ⟨kept, fun (bool : base.resolved = .bool) => ?_⟩
        rw [bool] at integer
        cases integer
      · simp only [Option.bind_eq_bind, Option.bind_eq_some_iff, Prod.exists,
          requireValue_eq_some] at evaluated
        obtain ⟨a, between, first, x, computed, same⟩ := evaluated
        cases same
        obtain ⟨between, truth⟩ := operandHypothesis typed.1 inDomain.1 holds first
        refine ⟨between, fun (bool : base.resolved = .bool) value same => ?_⟩
        cases same
        rw [bool] at computed ⊢
        exact (isTruth_unaryResult typed.2.1 bool (fun operandBool => truth operandBool a rfl)
          computed).wrap
  | cast base target operand operandHypothesis =>
      simp only [evaluate, Option.bind_eq_bind, Option.bind_eq_some_iff, Prod.exists,
        requireValue_eq_some] at evaluated
      obtain ⟨a, between, first, same⟩ := evaluated
      cases same
      obtain ⟨between, truth⟩ := operandHypothesis typed.1 inDomain.1 holds first
      refine ⟨between, fun (bool : base.resolved = .bool) value same => ?_⟩
      cases same
      rw [bool]
      rcases inDomain.2 with ⟨-, integer⟩ | ⟨operandBool, -⟩
      · rw [← typed.2.1, bool] at integer
        cases integer
      · exact (truth operandBool a rfl).wrap
  | literal base tokenType value =>
      cases evaluated
      refine ⟨holds, fun (bool : base.resolved = .bool) value same => ?_⟩
      cases same
      cases tokenType with
      | integer =>
          obtain ⟨_, _, integer, _⟩ := typed
          rw [bool] at integer
          cases integer
      | kwTrue =>
          change IsTruth (base.resolved.wrap 1)
          rw [bool]
          decide
      | kwFalse =>
          change IsTruth (base.resolved.wrap 0)
          rw [bool]
          decide
  | identifier base name depth id symbol =>
      cases evaluated
      obtain ⟨found, lookup, _, resolved, _, rfl, _⟩ := typed
      refine ⟨holds, fun (bool : base.resolved = .bool) value same => ?_⟩
      cases same
      rw [bool]
      exact (holds name found lookup (resolved ▸ bool)).wrap
  | funcCall base callee linkName arguments argumentsHypothesis =>
      simp only [evaluate, Option.bind_eq_bind, Option.bind_eq_some_iff, Prod.exists]
        at evaluated
      obtain ⟨values, between, passed, register, world, called, same⟩ := evaluated
      cases same
      obtain ⟨func, lookup, resolved, link, typedArguments⟩ := typed
      have each := (Expr.argumentsInDomain_iff arguments).mp inDomain
      have kept := evaluateArguments_holds
        (fun argument listed memory result after holds evaluated =>
          (argumentsHypothesis argument listed (typedArguments.typed argument listed)
            (each argument listed) holds evaluated).1) holds passed
      refine ⟨kept, fun (bool : base.resolved = .bool) value same => ?_⟩
      rw [bool] at same
      cases same
      rw [link] at called
      exact returns callee.name func lookup (resolved ▸ bool) values _ register world called

/-- The law of the operator domains: every operator has operands of its domain,
and every value of type `bool` is 0 or 1 when the variables and calls of that
type are. -/
def RespectsDomains (s : Semantic) (node : Expr) : Prop :=
  node.InDomain ∧
    ∀ (World : Type) (calls : Calls World) (memory : Memory World) (value : Int)
      (after : Memory World),
      ReturnsTruths s calls → HoldsTruths s memory → node.resolved = .bool →
        evaluate calls node memory = some (some value, after) → IsTruth value

/-- An accepted expression respects the operator domains exactly when every
shift of its source has integers on both sides and no cast names `void`. -/
theorem respectsDomains_iff {s : Semantic} (wellFormed : s.WellFormed) {source : Expr}
    (grammatical : source.Grammatical) (expected : ValueType)
    (accepted : Log.hadErrors (analyzeExpr s source expected).log = false) :
    RespectsDomains s (analyzeExpr s source expected).node ↔ source.ShiftsIntegers s := by
  have sound := analyzeExpr_sound wellFormed grammatical expected
  have ok : (analyzeExpr s source expected).ok = true := by
    simpa [accepted] using sound.log
  have typed := sound.typed ok
  have annotated := analyzeExpr_annotates s source expected ok
  rw [← typed.inDomain_iff annotated]
  refine ⟨And.left, fun inDomain => ⟨inDomain, ?_⟩⟩
  intro World calls memory value after returns holds bool evaluated
  exact (evaluate_truthful returns typed inDomain holds evaluated).2 bool value rfl

/-- The tables before any declaration. -/
def emptyTables : Semantic :=
  { filename := "main.su" }

theorem wellFormed_emptyTables : emptyTables.WellFormed :=
  ⟨by simp [Scope.WellFormed, emptyTables], by simp [FuncSymbolTable.Known, emptyTables]⟩

/-- The expression `true << 1`. -/
def shiftedTruth : Expr :=
  .binary {} .bitwiseLshift (.literal {} .kwTrue "true") (.literal {} .integer "1")

theorem respectsDomains_iff_shiftedTruth :
    RespectsDomains emptyTables (analyzeExpr emptyTables shiftedTruth .bool).node ↔
      shiftedTruth.ShiftsIntegers emptyTables :=
  have grammatical : shiftedTruth.Grammatical := ⟨trivial, trivial⟩
  respectsDomains_iff wellFormed_emptyTables grammatical .bool (by decide)

/-- The expression `true << 1` is accepted at type `bool` and has the value 2. -/
theorem shiftedTruth_differs :
    (compileFrontend "fn main() i32 { bool b = true << 1; return 0; }" "main.su" {}).isSome ∧
      Log.hadErrors (analyzeExpr emptyTables shiftedTruth .bool).log = false ∧
      evaluate noCalls (analyzeExpr emptyTables shiftedTruth .bool).node ⟨fun _ => 0, ()⟩ =
        some (some 2, ⟨fun _ => 0, ()⟩) ∧
      ¬RespectsDomains emptyTables (analyzeExpr emptyTables shiftedTruth .bool).node := by
  have two : evaluate noCalls (analyzeExpr emptyTables shiftedTruth .bool).node
      ⟨fun _ => 0, ()⟩ = some (some 2, ⟨fun _ => 0, ()⟩) := rfl
  refine ⟨by decide, by decide, two, fun respects => ?_⟩
  have truth := respects.2 Unit noCalls ⟨fun _ => 0, ()⟩ 2 ⟨fun _ => 0, ()⟩
    (fun _ _ _ _ _ _ _ _ called => by cases called) (fun _ _ lookup _ => by cases lookup)
    rfl two
  exact absurd truth (by decide)

end Sulfur.Ir
