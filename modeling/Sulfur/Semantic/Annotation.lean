import Sulfur.Semantic.Typing

/-!
# Analysed trees against their sources

The analysis of an expression keeps its tree: it fills the annotations in and
wraps an argument that it widens in a cast.
-/

namespace Sulfur

namespace Expr

/-- The second tree is the first one with annotations. -/
inductive Annotated : Expr → Expr → Prop
  | binary {base header : Base} {op : BinaryOp} {left right newLeft newRight : Expr}
      (first : Annotated left newLeft) (second : Annotated right newRight) :
      Annotated (.binary base op left right) (.binary header op newLeft newRight)
  | unary {base header : Base} {op : UnaryOp} {operand newOperand : Expr}
      (inner : Annotated operand newOperand) :
      Annotated (.unary base op operand) (.unary header op newOperand)
  | cast {base header : Base} {target : ValueType} {operand newOperand : Expr}
      (inner : Annotated operand newOperand) :
      Annotated (.cast base target operand) (.cast header target newOperand)
  | literal {base header : Base} {tokenType : LiteralType} {value : String} :
      Annotated (.literal base tokenType value) (.literal header tokenType value)
  | identifier {base header : Base} {name : String} {depth newDepth id newId : Nat}
      {symbol newSymbol : Option VarSymbol} :
      Annotated (.identifier base name depth id symbol)
        (.identifier header name newDepth newId newSymbol)
  | funcCall {base header : Base} {callee : Callee} {linkName newLinkName : Option String}
      {arguments newArguments : List Expr}
      (inner : List.Forall₂ Annotated arguments newArguments) :
      Annotated (.funcCall base callee linkName arguments)
        (.funcCall header callee newLinkName newArguments)
  | widened {header : Base} {source argument : Expr} {target : ValueType}
      (inner : Annotated source argument) (group : argument.resolved.isSameGroup target) :
      Annotated source (.cast header target argument)

end Expr

/-- An accepted analysis annotates its source. -/
def ExprAnalysis.Annotates (source : Expr) (analysis : ExprAnalysis) : Prop :=
  analysis.ok → source.Annotated analysis.node

section Operators

variable {s : Semantic}

theorem analyzeBinaryOperands_annotates (op : BinaryOp) (left right : Expr)
    {analyzeLeft analyzeRight : ValueType → ExprAnalysis}
    (annotatesLeft : ∀ type, (analyzeLeft type).Annotates left)
    (annotatesRight : ∀ type, (analyzeRight type).Annotates right) (expected : ValueType)
    (ok : (analyzeBinaryOperands op left right analyzeLeft analyzeRight expected).ok) :
    left.Annotated
        (analyzeBinaryOperands op left right analyzeLeft analyzeRight expected).left ∧
      right.Annotated
        (analyzeBinaryOperands op left right analyzeLeft analyzeRight expected).right := by
  revert ok
  unfold analyzeBinaryOperands
  dsimp only
  split
  · split
    · rename_i first
      exact fun second => ⟨annotatesLeft _ second, annotatesRight _ first⟩
    · simp
  · split
    · rename_i first
      exact fun second => ⟨annotatesLeft _ first, annotatesRight _ second⟩
    · simp

/-- Every branch of `analyze_binary` that accepts keeps the operator and its
operands. -/
theorem node_of_analyzeOperation (base : Base) (op : BinaryOp) (left right : Expr)
    (ok : (analyzeOperation s base op left right).ok) :
    ∃ header, (analyzeOperation s base op left right).node =
      .binary header op left right := by
  revert ok
  unfold analyzeOperation
  split
  · unfold analyzeLogical
    split
    · simp
    · exact fun _ => ⟨_, rfl⟩
  · split
    · unfold analyzeShift
      dsimp only
      split
      · exact fun _ => ⟨_, rfl⟩
      · split
        · simp
        · exact fun _ => ⟨_, rfl⟩
    · split
      · unfold analyzeRelational
        dsimp only
        split
        · simp
        · split
          · simp
          · exact fun _ => ⟨_, rfl⟩
      · unfold analyzeArithmetic
        dsimp only
        split
        · simp
        · split
          · simp
          · split
            · simp
            · exact fun _ => ⟨_, rfl⟩

theorem analyzeBinary_annotates {base : Base} {op : BinaryOp} {left right : Expr}
    {analyzeLeft analyzeRight : ValueType → ExprAnalysis}
    (annotatesLeft : ∀ type, (analyzeLeft type).Annotates left)
    (annotatesRight : ∀ type, (analyzeRight type).Annotates right) (expected : ValueType) :
    (analyzeBinary s base op left right analyzeLeft analyzeRight expected).Annotates
      (.binary base op left right) := by
  have operands := analyzeBinaryOperands_annotates op left right annotatesLeft
    annotatesRight (operandExpected op expected)
  unfold analyzeBinary
  generalize analyzeBinaryOperands op left right analyzeLeft analyzeRight
    (operandExpected op expected) = analysis at operands
  dsimp only
  split
  · exact nofun
  · rename_i ok
    simp only [Bool.not_eq_true, Bool.not_eq_false'] at ok
    obtain ⟨first, second⟩ := operands ok
    split
    · exact nofun
    · intro accepted
      obtain ⟨header, node⟩ := node_of_analyzeOperation base op _ _ accepted
      change Expr.Annotated _ (analyzeOperation s base op analysis.left analysis.right).node
      rw [node]
      exact .binary first second

theorem analyzeUnary_annotates {base : Base} {op : UnaryOp} {operand : Expr}
    {analyzeOperand : ValueType → ExprAnalysis}
    (annotates : ∀ type, (analyzeOperand type).Annotates operand) (expected : ValueType) :
    (analyzeUnary s base op operand analyzeOperand expected).Annotates
      (.unary base op operand) := by
  have increment (op : UnaryOp) :
      (analyzeIncrement s base op operand analyzeOperand expected).Annotates
        (.unary base op operand) := by
    have inner := annotates expected
    unfold analyzeIncrement
    dsimp only
    split
    · exact nofun
    · split
      · exact nofun
      · rename_i ok
        simp only [Bool.not_eq_true, Bool.not_eq_false'] at ok
        split
        · exact nofun
        · split
          · exact nofun
          · exact fun _ => .unary (inner ok)
  unfold analyzeUnary
  cases op with
  | negate =>
      dsimp only
      split
      · unfold analyzeNegatedLiteral
        dsimp only
        split
        · exact nofun
        · split
          · exact nofun
          · exact fun _ => .unary .literal
      · have inner := annotates (if expected.isSigned then expected else .i64)
        unfold analyzeNegate
        generalize analyzeOperand (if expected.isSigned then expected else .i64) =
          analysis at inner
        dsimp only
        split
        · exact nofun
        · rename_i ok
          simp only [Bool.not_eq_true, Bool.not_eq_false'] at ok
          split
          · exact nofun
          · split
            · exact nofun
            · exact fun _ => .unary (inner ok)
  | bitwiseNot =>
      dsimp only
      unfold analyzeBitwiseNot
      dsimp only
      split
      · exact nofun
      · rename_i ok
        simp only [Bool.not_eq_true, Bool.not_eq_false'] at ok
        split
        · exact nofun
        · exact fun _ => .unary (annotates _ ok)
  | logicalNot =>
      dsimp only
      unfold analyzeLogicalNot
      dsimp only
      split
      · exact nofun
      · rename_i ok
        simp only [Bool.not_eq_true, Bool.not_eq_false'] at ok
        split
        · exact nofun
        · exact fun _ => .unary (annotates _ ok)
  | prefixIncrement => exact increment _
  | postfixIncrement => exact increment _
  | prefixDecrement => exact increment _
  | postfixDecrement => exact increment _

theorem analyzeCast_annotates {base : Base} {target : ValueType} {source : Expr}
    {operand : ExprAnalysis} (annotates : operand.Annotates source) :
    (analyzeCast s base target operand).Annotates (.cast base target source) := by
  unfold analyzeCast
  dsimp only
  split
  · exact nofun
  · rename_i ok
    simp only [Bool.not_eq_true, Bool.not_eq_false'] at ok
    split
    · exact nofun
    · split
      · exact nofun
      · exact fun _ => .cast (annotates ok)

theorem analyzeLiteral_annotates (base : Base) (tokenType : LiteralType)
    (value : String) (expected : ValueType) :
    (analyzeLiteral s base tokenType value expected).Annotates
      (.literal base tokenType value) := by
  unfold analyzeLiteral
  cases tokenType with
  | kwTrue => exact fun _ => .literal
  | kwFalse => exact fun _ => .literal
  | integer =>
      dsimp only
      split
      · exact nofun
      · split
        · exact nofun
        · exact fun _ => .literal

theorem analyzeIdentifier_annotates (base : Base) (name : String) (depth id : Nat)
    (symbol : Option VarSymbol) :
    (analyzeIdentifier s base name depth id symbol).Annotates
      (.identifier base name depth id symbol) := by
  unfold analyzeIdentifier
  split
  · exact nofun
  · split
    · exact nofun
    · exact fun _ => .identifier

theorem analyzeArgument_annotates (funcName : String) (index : Nat)
    (param : Option Parameter) {source : Expr} {argument : ExprAnalysis}
    (annotates : argument.Annotates source) :
    (analyzeArgument s funcName index param argument).Annotates source := by
  unfold analyzeArgument
  cases param with
  | none => exact annotates
  | some param =>
      dsimp only
      split
      · exact annotates
      · rename_i ok
        simp only [Bool.not_eq_true, Bool.not_eq_false'] at ok
        split
        · exact nofun
        · rename_i checked
          simp only [Bool.not_eq_true, Bool.not_eq_false'] at checked
          split
          · rename_i differs
            obtain ⟨_, admits⟩ := checkArgumentType_cases s param.type funcName index
              argument.node.span differs.1
            exact fun _ => .widened (annotates ok) (admits checked).1
          · exact fun _ => annotates ok

theorem analyzeArguments_annotates {arguments : List Expr}
    (annotates : ∀ argument ∈ arguments, ∀ type,
      (analyzeExpr s argument type).Annotates argument)
    (funcName : String) (index : Nat) (params : List Parameter)
    (ok : (analyzeArguments s funcName index params arguments).ok) :
    List.Forall₂ Expr.Annotated arguments
      (analyzeArguments s funcName index params arguments).nodes := by
  induction arguments generalizing index params with
  | nil => exact .nil
  | cons argument rest inductionHypothesis =>
      rw [List.forall_mem_cons] at annotates
      simp only [analyzeArguments, Bool.and_eq_true] at ok ⊢
      exact .cons (analyzeArgument_annotates funcName index params.head?
          (annotates.1 _) ok.1)
        (inductionHypothesis annotates.2 _ _ ok.2)

end Operators

theorem analyzeExpr_annotates (s : Semantic) (expr : Expr) (expected : ValueType) :
    (analyzeExpr s expr expected).Annotates expr := by
  induction expr using Expr.induction generalizing expected with
  | binary base op left right leftHypothesis rightHypothesis =>
      exact analyzeBinary_annotates leftHypothesis rightHypothesis expected
  | unary base op operand operandHypothesis =>
      exact analyzeUnary_annotates operandHypothesis expected
  | cast base target operand operandHypothesis =>
      exact analyzeCast_annotates (operandHypothesis .unresolved)
  | literal base tokenType value => exact analyzeLiteral_annotates base tokenType value expected
  | identifier base name depth id symbol =>
      exact analyzeIdentifier_annotates base name depth id symbol
  | funcCall base callee linkName arguments argumentsHypothesis =>
      unfold analyzeExpr
      cases s.funcs.lookup callee.name with
      | none =>
          intro ok
          cases ok
      | some func =>
          have annotated := analyzeArguments_annotates argumentsHypothesis func.name 0
            func.parameters
          dsimp only
          unfold analyzeFuncCall
          split
          · intro ok
            cases ok
          · split
            · rename_i ok
              exact fun _ => .funcCall (annotated ok)
            · intro ok
              cases ok

end Sulfur
