import Sulfur.Frontend.Parser.Statement
import Sulfur.Semantic.Accepted

/-!
# What the parser builds

Every tree that the parser returns is grammatical, whatever tokens it reads:
the type of a declaration, of a parameter or of a cast is a type keyword, and
the bodies of functions, branches and loops are blocks.
-/

namespace Sulfur

/-- Every result of a parse has a property. -/
def Yields {α : Type} (parse : ParseM α) (property : α → Prop) : Prop :=
  ∀ p result, parse p = some result → property result.1

section Rules

variable {α β : Type}

theorem Yields.pure {property : α → Prop} {value : α} (holds : property value) :
    Yields (Pure.pure value : ParseM α) property := by
  rintro p result run
  obtain rfl := Option.some.inj run
  exact holds

theorem Yields.failure {property : α → Prop} :
    Yields (Alternative.failure : ParseM α) property := by
  rintro p result run
  cases run

theorem Yields.trivial (parse : ParseM α) : Yields parse fun _ => True :=
  fun _ _ _ => True.intro

/-- A sequence of two parses. -/
theorem ParseM.bind_eq_some (parse : ParseM α) {next : α → ParseM β} {p : Parser}
    {result : β × Parser} (run : (parse >>= next) p = some result) :
    ∃ value q, parse p = some (value, q) ∧ next value q = some result := by
  obtain ⟨⟨value, q⟩, first, rest⟩ := Option.bind_eq_some_iff.mp run
  exact ⟨value, q, first, rest⟩

theorem ParseM.bind_of_eq_some (parse : ParseM α) {next : α → ParseM β}
    {p q : Parser} {value : α} (first : parse p = some (value, q)) :
    (parse >>= next) p = next value q := by
  change (parse p).bind _ = _
  rw [first]
  rfl

/-- Sequencing: what the first parse yields is known to the second one. -/
theorem Yields.bind {parse : ParseM α} {next : α → ParseM β}
    {first : α → Prop} {property : β → Prop} (yields : Yields parse first)
    (then_ : ∀ value, first value → Yields (next value) property) :
    Yields (parse >>= next) property := by
  rintro p result run
  obtain ⟨value, q, parsed, rest⟩ := ParseM.bind_eq_some _ run
  exact then_ value (yields p (value, q) parsed) q result rest

/-- Sequencing when the result of the first parse does not matter. -/
theorem Yields.then {parse : ParseM α} {next : α → ParseM β}
    {property : β → Prop} (then_ : ∀ value, Yields (next value) property) :
    Yields (parse >>= next) property :=
  (Yields.trivial parse).bind fun value _ => then_ value

end Rules

/-- A parsed node, if there is one, is grammatical. -/
def Expr.GrammaticalResult (result : Option Expr) : Prop :=
  ∀ expr ∈ result, expr.Grammatical

theorem parserExpectType_yields (expected hint : String) :
    Yields (parserExpectType expected hint)
      fun result => ∀ type ∈ result, type ≠ .unresolved := by
  unfold parserExpectType
  refine .then fun token => ?_
  dsimp only
  split
  · exact .then fun _ => .pure (by simp)
  · rename_i known
    exact .then fun _ => .pure (by simpa using known)

theorem parsePostfixLoop_yields (fuel : Nat) {operand : Expr}
    (grammatical : operand.Grammatical) :
    Yields (parsePostfixLoop fuel operand) Expr.GrammaticalResult := by
  induction fuel generalizing operand with
  | zero => exact .failure
  | succ fuel inductionHypothesis =>
      refine .then fun token => ?_
      split
      · refine .then fun opToken => ?_
        split
        · exact .pure (by simp [Expr.GrammaticalResult])
        · exact inductionHypothesis grammatical
      · exact .pure (by simpa [Expr.GrammaticalResult] using grammatical)

theorem parseCastLoop_yields (fuel : Nat) {operand : Expr}
    (grammatical : operand.Grammatical) :
    Yields (parseCastLoop fuel operand) Expr.GrammaticalResult := by
  induction fuel generalizing operand with
  | zero => exact .failure
  | succ fuel inductionHypothesis =>
      refine .then fun token => ?_
      split
      · refine .then fun asToken => ?_
        refine (parserExpectType_yields _ _).bind fun result known => ?_
        split
        · exact .then fun _ => .pure (by simp [Expr.GrammaticalResult])
        · rename_i target
          exact inductionHypothesis ⟨known target rfl, grammatical⟩
      · exact .pure (by simpa [Expr.GrammaticalResult] using grammatical)

/-- What the expression parsers yield on a given fuel. -/
structure ExpressionYields (fuel : Nat) : Prop where
  expression : Yields (parseExpression fuel) Expr.GrammaticalResult
  binary : ∀ level, Yields (parseBinary fuel level) Expr.GrammaticalResult
  binaryLoop : ∀ level info left, left.Grammatical →
    Yields (parseBinaryLoop fuel level info left) Expr.GrammaticalResult
  cast : Yields (parseCast fuel) Expr.GrammaticalResult
  unary : Yields (parseUnary fuel) Expr.GrammaticalResult
  postfix_ : Yields (parsePostfix fuel) Expr.GrammaticalResult
  arguments : Yields (parseArguments fuel)
    fun result => ∀ arguments ∈ result, Expr.GrammaticalArguments arguments
  call : ∀ nameToken, Yields (parseCall fuel nameToken) Expr.GrammaticalResult
  primary : Yields (parsePrimary fuel) Expr.GrammaticalResult

theorem grammaticalResult_none : Expr.GrammaticalResult none := by
  simp [Expr.GrammaticalResult]

theorem grammaticalResult_some {expr : Expr} (grammatical : expr.Grammatical) :
    Expr.GrammaticalResult (some expr) := by
  simpa [Expr.GrammaticalResult] using grammatical

namespace ExpressionYields

variable {fuel : Nat}

theorem parseExpression_succ (yields : ExpressionYields fuel) :
    Yields (parseExpression (fuel + 1)) Expr.GrammaticalResult :=
  yields.binary 0

theorem parseBinary_succ (yields : ExpressionYields fuel) (level : Nat) :
    Yields (parseBinary (fuel + 1) level) Expr.GrammaticalResult := by
  unfold parseBinary
  split
  · exact yields.cast
  · refine (yields.binary _).bind fun result grammatical => ?_
    split
    · exact .pure grammaticalResult_none
    · rename_i left
      exact yields.binaryLoop _ _ _ (grammatical left rfl)

theorem parseBinaryLoop_succ (yields : ExpressionYields fuel) (level : Nat)
    (info : BinaryLevel) (left : Expr) (leftGrammatical : left.Grammatical) :
    Yields (parseBinaryLoop (fuel + 1) level info left) Expr.GrammaticalResult := by
  unfold parseBinaryLoop
  refine .then fun token => ?_
  split
  · refine .then fun opToken => ?_
    refine (yields.binary _).bind fun result grammatical => ?_
    split
    · exact .pure grammaticalResult_none
    · rename_i right
      have both : (Expr.binary { span := opToken.span } default left
          right).Grammatical := ⟨leftGrammatical, grammatical right rfl⟩
      split
      · exact .pure grammaticalResult_none
      · dsimp only
        split
        · exact yields.binaryLoop _ _ _ both
        · exact .pure (grammaticalResult_some both)
  · exact .pure (grammaticalResult_some leftGrammatical)

theorem parseCast_succ (yields : ExpressionYields fuel) :
    Yields (parseCast (fuel + 1)) Expr.GrammaticalResult := by
  refine yields.unary.bind fun result grammatical => ?_
  split
  · exact .pure grammaticalResult_none
  · rename_i expr
    exact parseCastLoop_yields fuel (grammatical expr rfl)

theorem parseUnary_succ (yields : ExpressionYields fuel) :
    Yields (parseUnary (fuel + 1)) Expr.GrammaticalResult := by
  unfold parseUnary
  refine .then fun token => ?_
  split
  · exact yields.postfix_
  · refine .then fun _ => ?_
    refine yields.unary.bind fun result grammatical => ?_
    split
    · exact .pure grammaticalResult_none
    · rename_i operand
      exact .pure (grammaticalResult_some (grammatical operand rfl))

theorem parsePostfix_succ (yields : ExpressionYields fuel) :
    Yields (parsePostfix (fuel + 1)) Expr.GrammaticalResult := by
  refine yields.primary.bind fun result grammatical => ?_
  split
  · exact .pure grammaticalResult_none
  · rename_i operand
    exact parsePostfixLoop_yields fuel (grammatical operand rfl)

theorem parseArguments_succ (yields : ExpressionYields fuel) :
    Yields (parseArguments (fuel + 1))
      fun result => ∀ arguments ∈ result, Expr.GrammaticalArguments arguments := by
  unfold parseArguments
  refine yields.expression.bind fun result grammatical => ?_
  split
  · exact .pure (by simp)
  · rename_i argument
    have first := grammatical argument rfl
    refine .then fun more => ?_
    split
    · refine yields.arguments.bind fun rest restGrammatical => ?_
      split
      · exact .pure (by simp)
      · rename_i arguments
        have both : Expr.GrammaticalArguments (argument :: arguments) :=
          ⟨first, restGrammatical arguments rfl⟩
        exact .pure (by simpa using both)
    · have single : Expr.GrammaticalArguments [argument] :=
        ⟨first, True.intro⟩
      exact .pure (by simpa using single)

theorem parseCall_succ (yields : ExpressionYields fuel) (nameToken : Token) :
    Yields (parseCall (fuel + 1) nameToken) Expr.GrammaticalResult := by
  unfold parseCall
  refine .then fun _ => .then fun token => ?_
  have argumentsYield : Yields
      (if token.type ≠ .rparen then parseArguments fuel else pure (some []))
      fun result => ∀ arguments ∈ result,
        Expr.GrammaticalArguments arguments := by
    split
    · exact yields.arguments
    · exact .pure (by simp [Expr.GrammaticalArguments])
  refine argumentsYield.bind fun result grammatical => ?_
  split
  · exact .pure grammaticalResult_none
  · rename_i arguments
    refine .then fun closed => ?_
    split
    · exact .pure (grammaticalResult_some (grammatical arguments rfl))
    · exact .then fun _ => .pure grammaticalResult_none

theorem parsePrimary_succ (yields : ExpressionYields fuel) :
    Yields (parsePrimary (fuel + 1)) Expr.GrammaticalResult := by
  unfold parsePrimary
  refine .then fun opened => ?_
  split
  · refine yields.expression.bind fun result grammatical => ?_
    split
    · exact .pure grammaticalResult_none
    · rename_i expr
      refine .then fun closed => ?_
      split
      · exact .pure (grammaticalResult_some (grammatical expr rfl))
      · exact .then fun _ => .pure grammaticalResult_none
  · refine .then fun token => ?_
    split
    · exact .then fun _ => .pure (grammaticalResult_some True.intro)
    · split
      · refine .then fun _ => .then fun nextToken => ?_
        split
        · exact yields.call token
        · exact .pure (grammaticalResult_some True.intro)
      · exact .then fun _ => .then fun _ => .pure grammaticalResult_none

end ExpressionYields

theorem expressionYields (fuel : Nat) : ExpressionYields fuel := by
  induction fuel with
  | zero =>
      exact ⟨.failure, fun _ => .failure, fun _ _ _ _ => .failure, .failure,
        .failure, .failure, .failure, fun _ => .failure, .failure⟩
  | succ fuel inductionHypothesis =>
      exact ⟨inductionHypothesis.parseExpression_succ, inductionHypothesis.parseBinary_succ,
        inductionHypothesis.parseBinaryLoop_succ, inductionHypothesis.parseCast_succ,
        inductionHypothesis.parseUnary_succ, inductionHypothesis.parsePostfix_succ,
        inductionHypothesis.parseArguments_succ, inductionHypothesis.parseCall_succ,
        inductionHypothesis.parsePrimary_succ⟩

/-! ## Statements -/

/-- A parsed statement, if there is one, is grammatical and has a given shape. -/
def Stmt.GrammaticalResult (shape : Stmt → Prop) (result : Option Stmt) : Prop :=
  ∀ stmt ∈ result, stmt.Grammatical ∧ shape stmt

theorem Stmt.grammaticalResult_none {shape : Stmt → Prop} :
    Stmt.GrammaticalResult shape none := by
  simp [Stmt.GrammaticalResult]

theorem Stmt.grammaticalResult_some {shape : Stmt → Prop} {stmt : Stmt}
    (grammatical : stmt.Grammatical) (shaped : shape stmt) :
    Stmt.GrammaticalResult shape (some stmt) := by
  simpa [Stmt.GrammaticalResult] using ⟨grammatical, shaped⟩

theorem Stmt.GrammaticalResult.mono {first second : Stmt → Prop}
    {result : Option Stmt} (grammatical : Stmt.GrammaticalResult first result)
    (weaker : ∀ stmt, first stmt → second stmt) :
    Stmt.GrammaticalResult second result :=
  fun stmt inResult =>
    ⟨(grammatical stmt inResult).1, weaker stmt (grammatical stmt inResult).2⟩

theorem Yields.mono {α : Type} {parse : ParseM α} {first second : α → Prop}
    (yields : Yields parse first) (weaker : ∀ value, first value → second value) :
    Yields parse second :=
  fun p result run => weaker result.1 (yields p result run)

/-- A declaration of a variable. -/
def Stmt.isVarDecl : Stmt → Bool
  | varDecl _ => true
  | _ => false

/-- A declaration of a function. -/
def Stmt.isFuncDecl : Stmt → Bool
  | funcDecl .. => true
  | _ => false

section Statements

variable (fuel : Nat)

theorem parseExprStmt_yields :
    Yields (parseExprStmt fuel) (Stmt.GrammaticalResult fun _ => True) := by
  refine (expressionYields fuel).expression.bind fun result grammatical => ?_
  split
  · exact .then fun _ => .pure Stmt.grammaticalResult_none
  · rename_i expr
    refine .then fun closed => ?_
    split
    · exact .pure (Stmt.grammaticalResult_some (grammatical expr rfl) trivial)
    · exact .then fun _ => .pure Stmt.grammaticalResult_none

theorem parseInitialiser_yields :
    Yields (parseInitialiser fuel)
      fun result => ∀ value ∈ result, Expr.GrammaticalResult value := by
  unfold parseInitialiser
  refine .then fun assigned => ?_
  split
  · refine (expressionYields fuel).expression.bind fun result grammatical => ?_
    split
    · exact .pure (by simp)
    · exact .pure (by simpa using grammatical)
  · exact .pure (by simpa using grammaticalResult_none)

theorem parseVarDecl_yields (qualifiers : Qualifiers) :
    Yields (parseVarDecl fuel qualifiers)
      (Stmt.GrammaticalResult fun stmt => stmt.isVarDecl) := by
  refine (parserExpectType_yields _ _).bind fun result known => ?_
  split
  · exact .then fun _ => .pure Stmt.grammaticalResult_none
  · rename_i type
    refine .then fun result => ?_
    split
    · exact .then fun _ => .pure Stmt.grammaticalResult_none
    · refine (parseInitialiser_yields fuel).bind fun result grammatical => ?_
      split
      · exact .then fun _ => .pure Stmt.grammaticalResult_none
      · rename_i value
        refine .then fun closed => ?_
        split
        · exact .pure (Stmt.grammaticalResult_some
            ⟨known type rfl, grammatical value rfl⟩ rfl)
        · exact .then fun _ => .pure Stmt.grammaticalResult_none

theorem parseVarAssign_yields :
    Yields (parseVarAssign fuel) (Stmt.GrammaticalResult fun _ => True) := by
  unfold parseVarAssign
  refine .then fun nameToken => .then fun opToken => ?_
  refine (expressionYields fuel).expression.bind fun result grammatical => ?_
  split
  · exact .then fun _ => .pure Stmt.grammaticalResult_none
  · rename_i rhs
    have rhsGrammatical := grammatical rhs rfl
    have assigned : Expr.GrammaticalResult (assignedValue nameToken opToken rhs) := by
      unfold assignedValue
      split
      · rintro value built
        obtain ⟨op, -, rfl⟩ := Option.map_eq_some_iff.mp built
        exact ⟨True.intro, rhsGrammatical⟩
      · exact grammaticalResult_some rhsGrammatical
    split
    · exact .pure Stmt.grammaticalResult_none
    · rename_i value built
      refine .then fun closed => ?_
      split
      · exact .pure (Stmt.grammaticalResult_some (assigned value built) trivial)
      · exact .then fun _ => .pure Stmt.grammaticalResult_none

theorem parseReturnValue_yields :
    Yields (parseReturnValue fuel)
      fun result => ∀ value ∈ result, Expr.GrammaticalResult value := by
  unfold parseReturnValue
  refine .then fun following => ?_
  split
  · refine (expressionYields fuel).expression.bind fun result grammatical => ?_
    split
    · exact .pure (by simp)
    · exact .pure (by simpa using grammatical)
  · exact .pure (by simpa using grammaticalResult_none)

theorem parseReturn_yields :
    Yields (parseReturn fuel) (Stmt.GrammaticalResult fun _ => True) := by
  unfold parseReturn
  refine .then fun token => ?_
  refine (parseReturnValue_yields fuel).bind fun result grammatical => ?_
  split
  · exact .then fun _ => .pure Stmt.grammaticalResult_none
  · rename_i value
    refine .then fun closed => ?_
    split
    · exact .pure (Stmt.grammaticalResult_some (grammatical value rfl) trivial)
    · exact .then fun _ => .pure Stmt.grammaticalResult_none

/-- Declared parameters have type keywords as types. -/
def ParametersKnown (params : List Parameter) : Prop :=
  ∀ param ∈ params, param.type ≠ .unresolved

theorem parseParameters_yields :
    Yields (parseParameters fuel)
      fun result => ∀ params ∈ result, ParametersKnown params := by
  induction fuel with
  | zero => exact .failure
  | succ fuel inductionHypothesis =>
      refine .then fun qualifiers => ?_
      refine (parserExpectType_yields _ _).bind fun result known => ?_
      split
      · exact .pure (by simp)
      · rename_i type
        have typeKnown := known type rfl
        refine .then fun result => ?_
        split
        · exact .pure (by simp)
        · refine .then fun more => ?_
          split
          · refine inductionHypothesis.bind fun result others => ?_
            split
            · exact .pure (by simp)
            · rename_i params
              have othersKnown := others params rfl
              exact .pure (by simpa [ParametersKnown, typeKnown] using othersKnown)
          · exact .pure (by simpa [ParametersKnown] using typeKnown)

theorem parseReturnType_yields :
    Yields parseReturnType fun result => ∀ type ∈ result, type ≠ .unresolved := by
  unfold parseReturnType
  refine .then fun token => ?_
  split
  · rename_i isType
    refine .then fun _ => .pure ?_
    intro type isResult
    obtain rfl := Option.some.inj isResult
    rw [ne_eq, TokenType.toType_eq_unresolved_iff, isType]
    simp
  · split
    · exact .pure (by simp)
    · exact .then fun _ => .pure (by simp)

/-- The types in the header of a function are type keywords. -/
def FuncDecl.Known (func : FuncDecl) : Prop :=
  func.returnType ≠ .unresolved ∧ ParametersKnown func.parameters

theorem parseFuncHeader_yields (qualifiers : Qualifiers) :
    Yields (parseFuncHeader fuel qualifiers)
      fun result => ∀ func ∈ result, func.Known := by
  unfold parseFuncHeader
  refine .then fun fnToken => .then fun result => ?_
  split
  · exact .pure (by simp)
  · refine .then fun opened => ?_
    split
    · refine .then fun following => ?_
      have parametersYield : Yields
          (if following.type ≠ .rparen then parseParameters fuel
            else pure (some []))
          fun result => ∀ params ∈ result, ParametersKnown params := by
        split
        · exact parseParameters_yields fuel
        · exact .pure (by simp [ParametersKnown])
      refine parametersYield.bind fun result known => ?_
      split
      · exact .pure (by simp)
      · rename_i parameters
        refine .then fun closed => ?_
        split
        · refine parseReturnType_yields.bind fun result returnKnown => ?_
          split
          · exact .pure (by simp)
          · rename_i returnType
            have both : returnType ≠ .unresolved ∧ ParametersKnown parameters :=
              ⟨returnKnown returnType rfl, known parameters rfl⟩
            exact .pure (by simpa [FuncDecl.Known] using both)
        · exact .pure (by simp)
    · exact .pure (by simp)

end Statements

/-- What the statement parsers yield on a given fuel. -/
structure StatementYields (fuel : Nat) : Prop where
  statement : Yields (parseStatement fuel) (Stmt.GrammaticalResult fun _ => True)
  decl : Yields (parseDecl fuel)
    (Stmt.GrammaticalResult fun stmt => stmt.isVarDecl ∨ stmt.isFuncDecl)
  funcDecl : ∀ qualifiers, Yields (parseFuncDecl fuel qualifiers)
    (Stmt.GrammaticalResult fun stmt => stmt.isFuncDecl)
  ifStmt : Yields (parseIf fuel) (Stmt.GrammaticalResult fun stmt => stmt.isIf)
  whileStmt : Yields (parseWhile fuel) (Stmt.GrammaticalResult fun _ => True)
  block : Yields (parseBlock fuel) (Stmt.GrammaticalResult fun stmt => stmt.isBlock)
  blockLoop : Yields (parseBlockLoop fuel) Stmt.GrammaticalAll

namespace StatementYields

variable {fuel : Nat}

theorem parseStatement_succ (yields : StatementYields fuel) :
    Yields (parseStatement (fuel + 1)) (Stmt.GrammaticalResult fun _ => True) := by
  unfold parseStatement
  refine .then fun token => .then fun nextToken => ?_
  split
  · exact yields.decl.mono fun _ result => result.mono fun _ _ => trivial
  · split
    · exact parseVarAssign_yields fuel
    · split
      · exact yields.block.mono fun _ result => result.mono fun _ _ => trivial
      · split
        · exact yields.ifStmt.mono fun _ result => result.mono fun _ _ => trivial
        · split
          · exact yields.whileStmt
          · split
            · exact parseReturn_yields fuel
            · exact parseExprStmt_yields fuel

theorem parseDecl_succ (yields : StatementYields fuel) :
    Yields (parseDecl (fuel + 1))
      (Stmt.GrammaticalResult fun stmt => stmt.isVarDecl ∨ stmt.isFuncDecl) := by
  unfold parseDecl
  refine .then fun quals => .then fun token => ?_
  split
  · exact (yields.funcDecl quals).mono fun _ result =>
      result.mono fun _ shaped => .inr shaped
  · split
    · exact (parseVarDecl_yields fuel quals).mono fun _ result =>
        result.mono fun _ shaped => .inl shaped
    · exact .then fun _ => .then fun _ => .pure Stmt.grammaticalResult_none

theorem parseFuncDecl_succ (yields : StatementYields fuel) (qualifiers : Qualifiers) :
    Yields (parseFuncDecl (fuel + 1) qualifiers)
      (Stmt.GrammaticalResult fun stmt => stmt.isFuncDecl) := by
  unfold parseFuncDecl
  refine (parseFuncHeader_yields fuel qualifiers).bind fun result known => ?_
  split
  · exact .then fun _ => .pure Stmt.grammaticalResult_none
  · rename_i func
    obtain ⟨returnKnown, parametersKnown⟩ := known func rfl
    refine .then fun endToken => ?_
    split
    · refine yields.block.bind fun result grammatical => ?_
      split
      · exact .then fun _ => .pure Stmt.grammaticalResult_none
      · rename_i block
        obtain ⟨blockGrammatical, isBlock⟩ := grammatical block rfl
        refine .pure (Stmt.grammaticalResult_some ?_ rfl)
        exact ⟨returnKnown, parametersKnown, by simpa using isBlock,
          blockGrammatical⟩
    · split
      · refine .then fun _ => .pure (Stmt.grammaticalResult_some ?_ rfl)
        exact ⟨returnKnown, parametersKnown, by simp, trivial⟩
      · exact .then fun _ => .then fun _ =>
          .pure Stmt.grammaticalResult_none

theorem parseIf_succ (yields : StatementYields fuel) :
    Yields (parseIf (fuel + 1)) (Stmt.GrammaticalResult fun stmt => stmt.isIf) := by
  unfold parseIf
  refine .then fun token => ?_
  refine (expressionYields fuel).expression.bind fun result grammatical => ?_
  split
  · exact .then fun _ => .pure Stmt.grammaticalResult_none
  · rename_i condition
    have conditionGrammatical := grammatical condition rfl
    refine yields.block.bind fun result thenGrammatical => ?_
    split
    · exact .then fun _ => .pure Stmt.grammaticalResult_none
    · rename_i branchThen
      obtain ⟨branchGrammatical, isBlock⟩ := thenGrammatical branchThen rfl
      refine .then fun hasElse => ?_
      split
      · refine .then fun following => ?_
        have elseYield : Yields
            (if following.type = .kwIf then parseIf fuel
              else parseBlock fuel)
            (Stmt.GrammaticalResult fun stmt => stmt.isBlock ∨ stmt.isIf) := by
          split
          · exact yields.ifStmt.mono fun _ result =>
              result.mono fun _ shaped => .inr shaped
          · exact yields.block.mono fun _ result =>
              result.mono fun _ shaped => .inl shaped
        refine elseYield.bind fun result elseGrammatical => ?_
        split
        · exact .then fun _ => .pure Stmt.grammaticalResult_none
        · rename_i branchElse
          obtain ⟨elseGrammatical, shaped⟩ := elseGrammatical branchElse rfl
          refine .pure (Stmt.grammaticalResult_some ?_ rfl)
          exact ⟨conditionGrammatical, ⟨isBlock, branchGrammatical⟩,
            by simpa using shaped, elseGrammatical⟩
      · refine .pure (Stmt.grammaticalResult_some ?_ rfl)
        exact ⟨conditionGrammatical, ⟨isBlock, branchGrammatical⟩, by simp,
          trivial⟩

theorem parseWhile_succ (yields : StatementYields fuel) :
    Yields (parseWhile (fuel + 1)) (Stmt.GrammaticalResult fun _ => True) := by
  unfold parseWhile
  refine .then fun token => ?_
  refine (expressionYields fuel).expression.bind fun result grammatical => ?_
  split
  · exact .then fun _ => .pure Stmt.grammaticalResult_none
  · rename_i condition
    have conditionGrammatical := grammatical condition rfl
    refine yields.block.bind fun result doGrammatical => ?_
    split
    · exact .then fun _ => .pure Stmt.grammaticalResult_none
    · rename_i branchDo
      obtain ⟨branchGrammatical, isBlock⟩ := doGrammatical branchDo rfl
      refine .pure (Stmt.grammaticalResult_some ?_ trivial)
      exact ⟨conditionGrammatical, isBlock, branchGrammatical⟩

theorem parseBlock_succ (yields : StatementYields fuel) :
    Yields (parseBlock (fuel + 1)) (Stmt.GrammaticalResult fun stmt => stmt.isBlock) := by
  unfold parseBlock
  refine .then fun start => .then fun opened => ?_
  split
  · refine yields.blockLoop.bind fun statements grammatical => ?_
    refine .then fun closed => ?_
    split
    · exact .pure (Stmt.grammaticalResult_some grammatical rfl)
    · exact .then fun _ => .pure Stmt.grammaticalResult_none
  · exact .then fun _ => .pure Stmt.grammaticalResult_none

theorem parseBlockLoop_succ (yields : StatementYields fuel) :
    Yields (parseBlockLoop (fuel + 1)) Stmt.GrammaticalAll := by
  unfold parseBlockLoop
  refine .then fun token => ?_
  split
  · refine .then fun start => ?_
    refine yields.statement.bind fun result grammatical => ?_
    split
    · rename_i stmt
      refine yields.blockLoop.bind fun rest restGrammatical => ?_
      exact .pure ⟨(grammatical stmt rfl).1, restGrammatical⟩
    · refine .then fun current => ?_
      dsimp only
      split
      · exact .then fun _ => yields.blockLoop
      · exact yields.blockLoop
  · exact .pure trivial

end StatementYields

theorem statementYields (fuel : Nat) : StatementYields fuel := by
  induction fuel with
  | zero =>
      exact ⟨.failure, .failure, fun _ => .failure, .failure, .failure, .failure,
        .failure⟩
  | succ fuel inductionHypothesis =>
      exact ⟨inductionHypothesis.parseStatement_succ, inductionHypothesis.parseDecl_succ,
        inductionHypothesis.parseFuncDecl_succ, inductionHypothesis.parseIf_succ,
        inductionHypothesis.parseWhile_succ, inductionHypothesis.parseBlock_succ,
        inductionHypothesis.parseBlockLoop_succ⟩

/-! ## Programs -/

/-- The statements of a program are grammatical declarations. -/
def Program.Grammatical (program : Program) : Prop :=
  ∀ stmt ∈ program.statements,
    stmt.Grammatical ∧ (stmt.isVarDecl ∨ stmt.isFuncDecl)

/-- A top-level node, if there is one, is an import or a grammatical
declaration. -/
def TopLevel.GrammaticalResult (result : Option TopLevel) : Prop :=
  ∀ stmt, result = some (.statement stmt) →
    stmt.Grammatical ∧ (stmt.isVarDecl ∨ stmt.isFuncDecl)

theorem parseTopLevel_yields (fuel : Nat) :
    Yields (parseTopLevel fuel) TopLevel.GrammaticalResult := by
  unfold parseTopLevel
  refine .then fun token => ?_
  split
  · refine (statementYields fuel).decl.bind fun result grammatical => ?_
    split
    · rename_i node
      refine .pure fun stmt isNode => ?_
      simp only [Option.some.injEq, TopLevel.statement.injEq] at isNode
      rw [← isNode]
      exact grammatical node rfl
    · exact .then fun _ => .pure (by simp [TopLevel.GrammaticalResult])
  · split
    · refine .then fun result => ?_
      split
      · exact .pure (by simp [TopLevel.GrammaticalResult])
      · exact .then fun _ => .pure (by simp [TopLevel.GrammaticalResult])
    · exact .then fun _ => .then fun _ =>
        .pure (by simp [TopLevel.GrammaticalResult])

theorem parseLoop_yields (fuel : Nat) {program : Program}
    (grammatical : program.Grammatical) :
    Yields (parseLoop fuel program) Program.Grammatical := by
  induction fuel generalizing program with
  | zero => exact .failure
  | succ fuel inductionHypothesis =>
      refine .then fun token => ?_
      split
      · refine .then fun start => ?_
        refine (parseTopLevel_yields fuel).bind fun result resultGrammatical => ?_
        split
        · rename_i node
          apply inductionHypothesis
          cases node with
          | importNode node => exact grammatical
          | statement stmt =>
              intro other inStatements
              rcases List.mem_append.mp inStatements with old | new
              · exact grammatical other old
              · rw [List.mem_singleton.mp new]
                exact resultGrammatical stmt rfl
        · refine .then fun current => ?_
          dsimp only
          split
          · exact .then fun _ => inductionHypothesis grammatical
          · exact inductionHypothesis grammatical
      · exact .pure grammatical

/-- Every program that the parser returns is grammatical. -/
theorem parse_grammatical {tokens : List Token} {filename : String}
    {parsed : Parsed} (run : parse tokens filename = some parsed) :
    parsed.program.Grammatical := by
  unfold parse at run
  split at run
  · obtain rfl := Option.some.inj run
    intro stmt inStatements
    cases inStatements
  · obtain ⟨result, parsed, rfl⟩ := Option.map_eq_some_iff.mp run
    have empty : Program.Grammatical {} := by
      intro stmt inStatements
      cases inStatements
    exact parseLoop_yields _ empty _ result parsed

end Sulfur
