import Sulfur.Frontend.Phrase
import Sulfur.Frontend.Parser.Reading

/-!
# Soundness of the parser

A parse function that returns a node without an error in the log has read tokens
that spell the node.  The fuel of `parse` is enough for that: a function is given
sixteen for each token in front of it, and a rank for the functions it goes
through before it passes one.
-/

namespace Sulfur

/-! ## Tokens of the grammar -/

theorem TokenType.postfixToken_of_toPostfixOp {type : TokenType} {op : UnaryOp}
    (isOperator : type.toPostfixOp = some op) : op.postfixToken = some type := by
  cases type <;> simp_all [TokenType.toPostfixOp] <;> subst isOperator <;> rfl

theorem TokenType.prefixToken_of_toUnaryOp {type : TokenType} {op : UnaryOp}
    (isOperator : type.toUnaryOp = some op) : op.prefixToken = some type := by
  cases type <;> simp_all [TokenType.toUnaryOp] <;> subst isOperator <;> rfl

theorem TokenType.token_of_toLiteralType {type : TokenType} {literalType : LiteralType}
    (isLiteral : type.toLiteralType = some literalType) : type = literalType.token := by
  cases type <;> simp_all [TokenType.toLiteralType] <;> subst isLiteral <;> rfl

/-- The row that the left operand of a level stands in. -/
def BinaryLevel.left (info : BinaryLevel) (level : Nat) : Nat :=
  if info.chainable then level else level + 1

/-- The levels of the parser are the rows of the precedence table. -/
theorem operator_of_level {level : Nat} {info : BinaryLevel} {type : TokenType}
    (isLevel : kBinaryLevels[level]? = some info) (isOperator : levelHasOperator info type) :
    ∃ op, type.toBinaryOp = some op ∧ type = op.token ∧ op.precedence = level ∧
      op.leftPrecedence = info.left level := by
  have inTable : level < 9 := by
    rcases List.getElem?_eq_some_iff.mp isLevel with ⟨inTable, -⟩
    exact inTable
  interval_cases level
  all_goals
    rcases Option.some.inj isLevel with rfl
    cases type <;> first | exact ⟨_, rfl, rfl, rfl, rfl⟩ | cases isOperator

/-- A phrase of a tight row stands in all looser ones. -/
theorem Spelled.loosen {expr : Expr} {tokens : List Token} {tight loose : Nat}
    (spelled : Spelled (.expression tight expr) tokens) (looser : loose ≤ tight)
    (inTable : tight ≤ primaryPrecedence) : Spelled (.expression loose expr) tokens := by
  induction looser using Nat.decreasingInduction with
  | self => exact spelled
  | of_succ row below inductionHypothesis =>
      exact .tighter (by omega) inductionHypothesis

/-! ## Expressions -/

/-- What the loops of the parser read: the tokens behind an operand that is
spelled already. -/
def Extends (first last : Nat) (operand expr : Expr) (tokens : List Token) : Prop :=
  ∀ before, Spelled (.expression first operand) before →
    Spelled (.expression last expr) (before ++ tokens)

theorem parsePostfixLoop_reads {fuel : Nat} {p : Parser} {operand : Expr}
    (placed : p.Placed) (enough : p.rest.length ≤ fuel) :
    Runs (parsePostfixLoop fuel operand) p
      (Reads 0 (Extends postfixPrecedence postfixPrecedence operand) p) := by
  induction fuel generalizing p operand with
  | zero =>
      have := placed.length_rest
      omega
  | succ fuel inductionHypothesis =>
      apply Runs.peek
      split
      · rename_i isOperator
        have notEnd : p.peek.type ≠ .eof := by
          intro isEnd
          simp [isEnd] at isOperator
        apply Runs.advance notEnd
        split
        · rename_i none
          simp only [Bool.or_eq_true, decide_eq_true_eq] at isOperator
          rcases isOperator with same | same <;> simp [same, TokenType.toPostfixOp] at none
        · rename_i op isOp
          have passed := placed.length_rest
          refine (inductionHypothesis (placed.skip notEnd) (by omega)).mono ?_
          intro result q reads
          refine reads.after (.token placed notEnd) (by omega) ?_
          intro _ value tokens extends_ before spelled
          rw [← List.append_assoc]
          exact extends_ _
            (.postfix_ spelled (TokenType.postfixToken_of_toPostfixOp isOp))
      · refine .pure (.found (.start placed) le_rfl ?_)
        intro _ before spelled
        simpa using spelled

theorem parseCastLoop_reads {fuel : Nat} {p : Parser} {operand : Expr}
    (placed : p.Placed) (enough : p.rest.length ≤ fuel) :
    Runs (parseCastLoop fuel operand) p
      (Reads 0 (Extends castPrecedence castPrecedence operand) p) := by
  induction fuel generalizing p operand with
  | zero =>
      have := placed.length_rest
      omega
  | succ fuel inductionHypothesis =>
      apply Runs.peek
      split
      · rename_i isAs
        have notEnd : p.peek.type ≠ .eof := by simp [isAs]
        have first := Parser.Reached.token placed notEnd
        apply Runs.advance notEnd
        apply Runs.expectType first.placed
        · intro isType
          have reached := first.step (Runs.ne_eof_of_isType isType)
          have passed := reached.passed
          refine (inductionHypothesis reached.placed (by omega)).mono ?_
          intro result q reads
          refine reads.after reached (by omega) ?_
          intro _ value tokens extends_ before spelled
          rw [← List.append_assoc]
          exact extends_ _ (.cast spelled isAs isType)
        · intro q lost
          exact .lostExpression (first.lost lost)
      · refine .pure (.found (.start placed) le_rfl ?_)
        intro _ before spelled
        simpa using spelled

/-- The ranks of the functions of an expression, counted from the last one that
passes no token before it calls the next. -/
def binaryRank (level : Nat) : Nat :=
  14 - level

/-- What the expression parsers read on a given fuel. -/
structure ExpressionReads (fuel : Nat) : Prop where
  expression : ∀ p, p.Placed → 16 * p.rest.length + 15 ≤ fuel →
    Runs (parseExpression fuel) p
      (Reads 1 (fun expr => Spelled (.expression 0 expr)) p)
  binary : ∀ p level, p.Placed → level ≤ castPrecedence →
    16 * p.rest.length + binaryRank level ≤ fuel →
    Runs (parseBinary fuel level) p
      (Reads 1 (fun expr => Spelled (.expression level expr)) p)
  binaryLoop : ∀ p level info left, p.Placed → kBinaryLevels[level]? = some info →
    16 * p.rest.length + 1 ≤ fuel →
    Runs (parseBinaryLoop fuel level info left) p
      (Reads 0 (Extends (info.left level) level left) p)
  cast : ∀ p, p.Placed → 16 * p.rest.length + 4 ≤ fuel →
    Runs (parseCast fuel) p
      (Reads 1 (fun expr => Spelled (.expression castPrecedence expr)) p)
  unary : ∀ p, p.Placed → 16 * p.rest.length + 3 ≤ fuel →
    Runs (parseUnary fuel) p
      (Reads 1 (fun expr => Spelled (.expression unaryPrecedence expr)) p)
  postfix_ : ∀ p, p.Placed → 16 * p.rest.length + 2 ≤ fuel →
    Runs (parsePostfix fuel) p
      (Reads 1 (fun expr => Spelled (.expression postfixPrecedence expr)) p)
  arguments : ∀ p, p.Placed → 16 * p.rest.length + 16 ≤ fuel →
    Runs (parseArguments fuel) p
      (Reads 1 (fun arguments tokens => arguments ≠ [] ∧
        Spelled (.arguments arguments) tokens) p)
  call : ∀ p nameToken, p.Placed → p.peek.type = .lparen →
    16 * p.rest.length + 1 ≤ fuel →
    Runs (parseCall fuel nameToken) p
      (Reads 1 (fun expr tokens => nameToken.type = .identifier →
        Spelled (.expression primaryPrecedence expr) (nameToken :: tokens)) p)
  primary : ∀ p, p.Placed → 16 * p.rest.length + 1 ≤ fuel →
    Runs (parsePrimary fuel) p
      (Reads 1 (fun expr => Spelled (.expression primaryPrecedence expr)) p)

section Expression

variable {fuel : Nat} (ih : ExpressionReads fuel) {p : Parser} (placed : p.Placed)

include ih placed

theorem parseBinary_reads {level : Nat} (inTable : level ≤ castPrecedence)
    (enough : 16 * p.rest.length + binaryRank level ≤ fuel + 1) :
    Runs (parseBinary (fuel + 1) level) p
      (Reads 1 (fun expr => Spelled (.expression level expr)) p) := by
  unfold castPrecedence binaryRank at *
  unfold parseBinary
  split
  · rename_i outside
    have isCast : level = 9 := by
      have := List.getElem?_eq_none_iff.mp outside
      simp only [kBinaryLevels, List.length_cons, List.length_nil] at this
      omega
    rw [isCast]
    exact ih.cast p placed (by omega)
  · rename_i info isLevel
    have inside : level < 9 := by
      rcases List.getElem?_eq_some_iff.mp isLevel with ⟨inside, -⟩
      exact inside
    apply Runs.read (ih.binary p (level + 1) placed inside (by unfold binaryRank; omega))
    · intro q lost
      exact .lost lost
    · intro left q consumed reached spelled
      have passed := reached.passed
      refine (ih.binaryLoop q level info left reached.placed isLevel (by omega)).mono ?_
      intro result r reads
      refine reads.after reached (by omega) ?_
      intro clean value tokens extends_
      apply extends_
      apply (spelled clean).loosen
      · unfold BinaryLevel.left
        split <;> omega
      · unfold primaryPrecedence
        omega

theorem parseBinaryLoop_reads {level : Nat} {info : BinaryLevel} {left : Expr}
    (isLevel : kBinaryLevels[level]? = some info)
    (enough : 16 * p.rest.length + 1 ≤ fuel + 1) :
    Runs (parseBinaryLoop (fuel + 1) level info left) p
      (Reads 0 (Extends (info.left level) level left) p) := by
  have inside : level < 9 := by
    rcases List.getElem?_eq_some_iff.mp isLevel with ⟨inside, -⟩
    exact inside
  have passed := placed.length_rest
  unfold parseBinaryLoop
  apply Runs.peek
  split
  · rename_i isOperator
    rcases operator_of_level isLevel isOperator with
      ⟨op, toOp, isToken, precedence, leftPrecedence⟩
    have notEnd : p.peek.type ≠ .eof := by
      rw [isToken]
      cases op <;> simp [BinaryOp.token]
    have first := Parser.Reached.token placed notEnd
    apply Runs.advance notEnd
    apply Runs.read (ih.binary _ (level + 1) first.placed inside
      (by unfold binaryRank; omega))
    · intro q lost
      exact .lost (first.lost lost)
    · intro right q consumed second spelled
      rw [toOp]
      have reached := first.then_ second
      have node : ∀ before, q.Clean →
          Spelled (.expression (info.left level) left) before →
          Spelled
            (.expression level (.binary { span := p.peek.span } op left right))
            (before ++ ([p.peek] ++ consumed)) := by
        intro before clean leftSpelled
        rw [← precedence]
        apply Spelled.binary
        · rw [leftPrecedence]
          exact leftSpelled
        · exact isToken
        · rw [precedence]
          exact spelled clean
      dsimp only
      split
      · rename_i chainable
        have passed := reached.passed
        refine (ih.binaryLoop q level info _ second.placed isLevel (by omega)).mono ?_
        intro result r reads
        refine reads.after reached (by omega) ?_
        intro clean value tokens extends_ before leftSpelled
        rw [← List.append_assoc]
        apply extends_
        have same : info.left level = level := if_pos chainable
        rw [same] at node leftSpelled ⊢
        exact node before clean leftSpelled
      · exact .pure (.found reached (by omega)
          fun clean before leftSpelled => node before clean leftSpelled)
  · refine .pure (.found (.start placed) le_rfl ?_)
    intro _ before spelled
    rw [List.append_nil]
    apply spelled.loosen
    · unfold BinaryLevel.left
      split <;> omega
    · unfold BinaryLevel.left primaryPrecedence
      split <;> omega

theorem parseCast_reads (enough : 16 * p.rest.length + 4 ≤ fuel + 1) :
    Runs (parseCast (fuel + 1)) p
      (Reads 1 (fun expr => Spelled (.expression castPrecedence expr)) p) := by
  unfold parseCast
  apply Runs.read (ih.unary p placed (by omega))
  · intro q lost
    exact .lost lost
  · intro operand q consumed reached spelled
    have passed := reached.passed
    refine (parseCastLoop_reads reached.placed (by omega)).mono ?_
    intro result r reads
    refine reads.after reached (by omega) ?_
    intro clean value tokens extends_
    exact extends_ _ (.tighter (by decide) (spelled clean))

theorem parseUnary_reads (enough : 16 * p.rest.length + 3 ≤ fuel + 1) :
    Runs (parseUnary (fuel + 1)) p
      (Reads 1 (fun expr => Spelled (.expression unaryPrecedence expr)) p) := by
  unfold parseUnary
  apply Runs.peek
  split
  · refine (ih.postfix_ p placed (by omega)).mono ?_
    intro result q reads
    refine reads.after (.start placed) (by omega) ?_
    intro _ value tokens spelled
    exact .tighter (by decide) spelled
  · rename_i op isOperator
    have notEnd : p.peek.type ≠ .eof := by
      intro isEnd
      simp [isEnd, TokenType.toUnaryOp] at isOperator
    have first := Parser.Reached.token placed notEnd
    have passed := first.passed
    apply Runs.advance notEnd
    apply Runs.read (ih.unary _ first.placed (by omega))
    · intro q lost
      exact .lost (first.lost lost)
    · intro operand q consumed second spelled
      exact .pure (.found (first.then_ second) (by omega) fun clean =>
        .prefix_ (TokenType.prefixToken_of_toUnaryOp isOperator) (spelled clean))

theorem parsePostfix_reads (enough : 16 * p.rest.length + 2 ≤ fuel + 1) :
    Runs (parsePostfix (fuel + 1)) p
      (Reads 1 (fun expr => Spelled (.expression postfixPrecedence expr)) p) := by
  unfold parsePostfix
  apply Runs.read (ih.primary p placed (by omega))
  · intro q lost
    exact .lost lost
  · intro operand q consumed reached spelled
    have passed := reached.passed
    refine (parsePostfixLoop_reads reached.placed (by omega)).mono ?_
    intro result r reads
    refine reads.after reached (by omega) ?_
    intro clean value tokens extends_
    exact extends_ _ (.tighter (by decide) (spelled clean))

theorem parseArguments_reads (enough : 16 * p.rest.length + 16 ≤ fuel + 1) :
    Runs (parseArguments (fuel + 1)) p
      (Reads 1 (fun arguments tokens => arguments ≠ [] ∧
        Spelled (.arguments arguments) tokens) p) := by
  unfold parseArguments
  apply Runs.read (ih.expression p placed (by omega))
  · intro q lost
    exact .lost lost
  · intro argument q consumed first spelled
    have passed := first.passed
    apply Runs.match_
    · intro isComma
      have reached := first.step (by simp [isComma])
      have passed := reached.passed
      apply Runs.read (ih.arguments _ reached.placed (by omega))
      · intro r lost
        exact .lost (reached.lost lost)
      · intro others r further second othersSpelled
        refine .pure (.found (reached.then_ second) (by omega) ?_)
        intro clean
        rcases othersSpelled clean with ⟨nonempty, isSpelled⟩
        cases others with
        | nil => exact absurd rfl nonempty
        | cons next others =>
            rw [List.append_assoc]
            exact ⟨List.cons_ne_nil _ _,
              .moreArguments (spelled (second.moves.clean clean)) isComma isSpelled⟩
    · intro
      exact .pure (.found first (by omega) fun clean =>
        ⟨List.cons_ne_nil _ _, .lastArgument (spelled clean)⟩)

theorem parseCall_reads {nameToken : Token} (isOpening : p.peek.type = .lparen)
    (enough : 16 * p.rest.length + 1 ≤ fuel + 1) :
    Runs (parseCall (fuel + 1) nameToken) p
      (Reads 1 (fun expr tokens => nameToken.type = .identifier →
        Spelled (.expression primaryPrecedence expr) (nameToken :: tokens)) p) := by
  have first := Parser.Reached.token placed (by simp [isOpening])
  have passed := first.passed
  unfold parseCall
  apply Runs.advance (by simp [isOpening])
  apply Runs.peek
  have arguments : Runs
      (if (p.skip 1).peek.type ≠ .rparen then parseArguments fuel else pure (some []))
      (p.skip 1) (Reads 0 (fun arguments => Spelled (.arguments arguments)) (p.skip 1)) := by
    split
    · refine (ih.arguments _ first.placed (by omega)).mono ?_
      intro result q reads
      exact reads.after (.start first.placed) (by omega) fun _ _ _ spelled => spelled.2
    · exact .pure (.found (.start first.placed) le_rfl fun _ => .noArguments)
  apply Runs.read arguments
  · intro q lost
    exact .lost (first.lost lost)
  · intro arguments q consumed second spelled
    have reached := first.then_ second
    apply Runs.expect reached.placed
    · intro isClosing
      have closed := reached.step (by simp [isClosing])
      exact .pure (.found closed (by omega) fun clean isName =>
        .call isName isOpening (spelled clean) isClosing)
    · intro r lost
      exact .lostExpression (reached.lost lost)

theorem parsePrimary_reads (enough : 16 * p.rest.length + 1 ≤ fuel + 1) :
    Runs (parsePrimary (fuel + 1)) p
      (Reads 1 (fun expr => Spelled (.expression primaryPrecedence expr)) p) := by
  unfold parsePrimary
  apply Runs.match_
  · intro isOpening
    have first := Parser.Reached.token placed (by simp [isOpening])
    have passed := first.passed
    apply Runs.read (ih.expression _ first.placed (by omega))
    · intro q lost
      exact .lost (first.lost lost)
    · intro expr q consumed second spelled
      have reached := first.then_ second
      apply Runs.expect reached.placed
      · intro isClosing
        have closed := reached.step (by simp [isClosing])
        exact .pure (.found closed (by omega) fun clean =>
          .parenthesized isOpening (spelled clean) isClosing)
      · intro r lost
        exact .lostExpression (reached.lost lost)
  · intro
    apply Runs.peek
    split
    · rename_i literalType isLiteral
      have notEnd : p.peek.type ≠ .eof := by
        intro isEnd
        simp [isEnd, TokenType.toLiteralType] at isLiteral
      apply Runs.advance notEnd
      exact .pure (.found (.token placed notEnd) le_rfl fun _ =>
        .literal (TokenType.token_of_toLiteralType isLiteral))
    · split
      · rename_i isName
        have first := Parser.Reached.token placed (by simp [isName])
        have passed := first.passed
        apply Runs.advance (by simp [isName])
        apply Runs.peek
        split
        · rename_i isOpening
          refine (ih.call _ _ first.placed isOpening (by omega)).mono ?_
          intro result q reads
          refine reads.after first (by omega) ?_
          intro _ value tokens spelled
          exact spelled isName
        · exact .pure (.found first le_rfl fun _ => .identifier isName)
      · apply Runs.reportUnexpected placed
        intro q lost
        exact .lostExpression lost

end Expression

theorem expressionReads (fuel : Nat) : ExpressionReads fuel := by
  induction fuel with
  | zero =>
      constructor
      case binary =>
        intro p level _ inTable enough
        unfold binaryRank castPrecedence at *
        omega
      all_goals
        intros
        omega
  | succ fuel ih =>
      constructor
      case expression =>
        intro p placed enough
        exact ih.binary p 0 placed (by decide) (by unfold binaryRank; omega)
      case binary =>
        intro p level placed inTable enough
        exact parseBinary_reads ih placed inTable enough
      case binaryLoop =>
        intro p level info left placed isLevel enough
        exact parseBinaryLoop_reads ih placed isLevel enough
      case cast =>
        intro p placed enough
        exact parseCast_reads ih placed enough
      case unary =>
        intro p placed enough
        exact parseUnary_reads ih placed enough
      case postfix_ =>
        intro p placed enough
        exact parsePostfix_reads ih placed enough
      case arguments =>
        intro p placed enough
        exact parseArguments_reads ih placed enough
      case call =>
        intro p nameToken placed isOpening enough
        exact parseCall_reads ih placed isOpening enough
      case primary =>
        intro p placed enough
        exact parsePrimary_reads ih placed enough

/-! ## Declarations -/

/-- The qualifiers of either of two lists. -/
def Qualifiers.join (first second : Qualifiers) : Qualifiers where
  isMutable := first.isMutable || second.isMutable
  isPublic := first.isPublic || second.isPublic
  isExtern := first.isExtern || second.isExtern

theorem Qualifiers.join_ofTokens_cons {quals : Qualifiers} {token : Token}
    {tokens : List Token} :
    quals.join (.ofTokens (token :: tokens)) =
      (quals.join (.ofTokens [token])).join (.ofTokens tokens) := by
  simp [Qualifiers.join, Qualifiers.ofTokens, Bool.or_assoc]

/-- The outcome of the loop over qualifiers, which logs warnings only. -/
def QualifiersRead (before : Qualifiers) (p : Parser) (quals : Qualifiers) (q : Parser) :
    Prop :=
  ∃ consumed, p.Reached 0 consumed q ∧ AreQualifiers consumed ∧
    quals = before.join (.ofTokens consumed)

theorem Runs.repeatedQual {β : Type} {repeated : Bool} {token : Token} {next : ParseM β}
    {p : Parser} {post : β → Parser → Prop} (placed : p.Placed)
    (run : ∀ q, p.Reached 0 [] q → q.peek = p.peek → Runs next q post) :
    Runs (if repeated then (do let _ ← reportRepeatedQual token; next) else next) p
      post := by
  split
  · exact Runs.update (run _ ⟨.report placed _, le_rfl, fun _ => rfl⟩ rfl)
  · exact run p (.start placed) rfl

theorem parseQualifiersLoop_reads {fuel : Nat} {p : Parser} {quals : Qualifiers}
    (placed : p.Placed) (enough : p.rest.length ≤ fuel) :
    Runs (parseQualifiersLoop fuel quals) p (QualifiersRead quals p) := by
  induction fuel generalizing p quals with
  | zero =>
      have := placed.length_rest
      omega
  | succ fuel inductionHypothesis =>
      -- one qualifier is passed, and the loop goes on with it added
      have step : ∀ {added : Qualifiers} (q : Parser), p.Reached 0 [] q →
          q.peek = p.peek → p.peek.type.isQual →
          added = quals.join (.ofTokens [p.peek]) →
          Runs (do let _ ← parserAdvance; parseQualifiersLoop fuel added) q
            (QualifiersRead quals p) := by
        intro added q first same isQual isAdded
        have notEnd : q.peek.type ≠ .eof := by
          intro isEnd
          simp [← same, isEnd, TokenType.isQual] at isQual
        have reached := first.step notEnd
        have passed := reached.passed
        apply Runs.advance notEnd
        refine (inductionHypothesis reached.placed (by omega)).mono ?_
        rintro result r ⟨consumed, second, areQualifiers, isResult⟩
        refine ⟨_, (reached.then_ second).weaken (Nat.zero_le _), ?_, ?_⟩
        · rw [same]
          exact List.forall_mem_cons.mpr ⟨isQual, areQualifiers⟩
        · rw [isResult, isAdded, same]
          exact Qualifiers.join_ofTokens_cons.symm
      apply Runs.peek
      split
      · rename_i isMut
        apply Runs.repeatedQual placed
        intro q first same
        exact step q first same (by simp [isMut, TokenType.isQual])
          (by simp [Qualifiers.join, Qualifiers.ofTokens, isMut])
      · rename_i isPub
        apply Runs.repeatedQual placed
        intro q first same
        exact step q first same (by simp [isPub, TokenType.isQual])
          (by simp [Qualifiers.join, Qualifiers.ofTokens, isPub])
      · rename_i isExtern
        apply Runs.repeatedQual placed
        intro q first same
        exact step q first same (by simp [isExtern, TokenType.isQual])
          (by simp [Qualifiers.join, Qualifiers.ofTokens, isExtern])
      · refine .pure ⟨[], .start placed, ?_, ?_⟩
        · exact List.forall_mem_nil _
        · simp [Qualifiers.join, Qualifiers.ofTokens]

theorem parseQualifiers_reads {fuel : Nat} {p : Parser} (placed : p.Placed)
    (enough : p.rest.length ≤ fuel) :
    Runs (parseQualifiers fuel) p fun quals q =>
      ∃ consumed, p.Reached 0 consumed q ∧ AreQualifiers consumed ∧
        quals = .ofTokens consumed := by
  refine (parseQualifiersLoop_reads placed enough).mono ?_
  rintro quals q ⟨consumed, reached, areQualifiers, isResult⟩
  refine ⟨consumed, reached, areQualifiers, ?_⟩
  rw [isResult]
  simp [Qualifiers.join]

theorem parseParameters_reads {fuel : Nat} {p : Parser} (placed : p.Placed)
    (enough : p.rest.length + 1 ≤ fuel) :
    Runs (parseParameters fuel) p (Reads 1 ParametersSpelled p) := by
  induction fuel generalizing p with
  | zero => omega
  | succ fuel inductionHypothesis =>
      unfold parseParameters
      apply (parseQualifiers_reads placed (by omega)).andThen
      rintro quals q ⟨consumed, first, areQualifiers, rfl⟩
      apply Runs.expectType first.placed
      · intro isType
        have typed := first.step (Runs.ne_eof_of_isType isType)
        apply Runs.expectIdentifier typed.placed
        · intro isName
          have named := typed.step (by simp [isName])
          apply Runs.match_
          · intro isComma
            have reached := named.step (by simp [isComma])
            have passed := reached.passed
            apply Runs.read (inductionHypothesis reached.placed (by omega))
            · intro r lost
              exact .lost (reached.lost lost)
            · intro others r further second spelled
              refine .pure (.found (reached.then_ second) (by omega) ?_)
              intro clean
              simp only [List.append_assoc]
              exact .more areQualifiers isType isName isComma (spelled clean)
          · intro
            refine .pure (.found named (by omega) ?_)
            intro _
            simp only [List.append_assoc]
            exact .last areQualifiers isType isName
        · intro r lost
          exact .lost (typed.lost lost)
      · intro r lost
        exact .lost (first.lost lost)

theorem parseReturnType_reads {p : Parser} (placed : p.Placed) :
    Runs parseReturnType p (Reads 0 ReturnTypeSpelled p) := by
  unfold parseReturnType
  apply Runs.peek
  split
  · rename_i isType
    have notEnd := Runs.ne_eof_of_isType isType
    apply Runs.advance notEnd
    exact .pure (.found (.token placed notEnd) (by omega) fun _ => .written isType)
  · split
    · exact .pure (.found (.start placed) le_rfl fun _ => .omitted)
    · apply Runs.reportUnexpected placed
      intro q lost
      exact .lost lost

theorem parseFuncHeader_reads {fuel : Nat} {p : Parser} (placed : p.Placed)
    (isFn : p.peek.type = .kwFn) (enough : p.rest.length ≤ fuel) {qualTokens : List Token}
    (areQualifiers : AreQualifiers qualTokens) :
    Runs (parseFuncHeader fuel (.ofTokens qualTokens)) p
      (Reads 1 (fun func tokens => func.Spelled (qualTokens ++ tokens)) p) := by
  unfold parseFuncHeader
  have first := Parser.Reached.token placed (by simp [isFn])
  apply Runs.advance (by simp [isFn])
  apply Runs.expectIdentifier first.placed
  · intro isName
    have named := first.step (by simp [isName])
    apply Runs.expect named.placed
    · intro isOpening
      have opened := named.step (by simp [isOpening])
      have passed := opened.passed
      apply Runs.peek
      have parameters : ∀ q, q.Placed → q.rest.length + 1 ≤ fuel →
          Runs
            (if q.peek.type ≠ .rparen then parseParameters fuel else pure (some [])) q
            (Reads 0 ParameterListSpelled q) := by
        intro q placed enough
        split
        · refine (parseParameters_reads placed enough).mono ?_
          intro result r reads
          exact reads.after (.start placed) (by omega) fun _ _ _ spelled => .some spelled
        · exact .pure (.found (.start placed) le_rfl fun _ => .none)
      apply Runs.read (parameters _ opened.placed (by omega))
      · intro q lost
        exact .lost (opened.lost lost)
      · intro parameters q consumed second spelled
        have listed := opened.then_ second
        apply Runs.expect listed.placed
        · intro isClosing
          have closed := listed.step (by simp [isClosing])
          apply Runs.read (parseReturnType_reads closed.placed)
          · intro r lost
            exact .lost (closed.lost lost)
          · intro returnType r further third returned
            refine .pure (.found (closed.then_ third) (by omega) ?_)
            intro clean
            have split : [p.peek] ++ [(p.skip 1).peek] ++ [((p.skip 1).skip 1).peek] ++
                consumed ++ [q.peek] ++ further =
              p.peek :: (p.skip 1).peek :: ((p.skip 1).skip 1).peek :: consumed ++
                q.peek :: further := by simp
            rw [split, ← List.append_assoc]
            exact .mk areQualifiers isFn isName isOpening
              (spelled (third.moves.clean clean)) isClosing (returned clean)
        · intro r lost
          exact .lost (listed.lost lost)
    · intro q lost
      exact .lost (named.lost lost)
  · intro q lost
    exact .lost (first.lost lost)

/-! ## Elementary statements -/

section Elementary

variable {fuel : Nat} {p : Parser} (placed : p.Placed)
  (enough : 16 * p.rest.length + 15 ≤ fuel)

include placed enough

theorem parseExprStmt_reads :
    Runs (parseExprStmt fuel) p (Reads 1 (fun stmt => Spelled (.statement stmt)) p) := by
  unfold parseExprStmt
  apply Runs.read ((expressionReads fuel).expression p placed enough)
  · intro q lost
    exact .lostStatement lost
  · intro expr q consumed reached spelled
    apply Runs.expect reached.placed
    · intro isSemicolon
      exact .pure (.found (reached.step (by simp [isSemicolon])) (by omega) fun clean =>
        .expressionStatement (spelled clean) isSemicolon)
    · intro r lost
      exact .lostStatement (reached.lost lost)

/-- The part of a declaration between the name and the semicolon. -/
inductive InitialiserSpelled : Option Expr → List Token → Prop
  | none : InitialiserSpelled none []
  | some {equal : Token} {value : Expr} {tokens : List Token}
      (isEqual : equal.type = .equal) (spelled : Spelled (.expression 0 value) tokens) :
      InitialiserSpelled (some value) (equal :: tokens)

theorem parseInitialiser_reads :
    Runs (parseInitialiser fuel) p (Reads 0 InitialiserSpelled p) := by
  unfold parseInitialiser
  apply Runs.match_
  · intro isEqual
    have first := Parser.Reached.token placed (by simp [isEqual])
    have passed := first.passed
    apply Runs.read ((expressionReads fuel).expression _ first.placed (by omega))
    · intro q lost
      exact .lost (first.lost lost)
    · intro value q consumed second spelled
      exact .pure (.found (first.then_ second) (by omega) fun clean =>
        .some isEqual (spelled clean))
  · intro
    exact .pure (.found (.start placed) le_rfl fun _ => .none)

end Elementary

theorem parseVarDecl_reads {fuel : Nat} {p : Parser} (placed : p.Placed)
    (enough : 16 * p.rest.length ≤ fuel) {qualTokens : List Token}
    (areQualifiers : AreQualifiers qualTokens) :
    Runs (parseVarDecl fuel (.ofTokens qualTokens)) p
      (Reads 1 (fun stmt tokens => Spelled (.statement stmt) (qualTokens ++ tokens)) p) := by
  unfold parseVarDecl
  apply Runs.expectType placed
  · intro isType
    have typed := Parser.Reached.token placed (Runs.ne_eof_of_isType isType)
    apply Runs.expectIdentifier typed.placed
    · intro isName
      have named := typed.step (by simp [isName])
      have passed := named.passed
      apply Runs.read (parseInitialiser_reads named.placed (by omega))
      · intro q lost
        exact .lostStatement (named.lost lost)
      · intro value q consumed second initialised
        have reached := named.then_ second
        apply Runs.expect reached.placed
        · intro isSemicolon
          refine .pure (.found (reached.step (by simp [isSemicolon])) (by omega) ?_)
          intro clean
          cases initialised clean with
          | none => exact .varDecl areQualifiers isType isName isSemicolon
          | some isEqual spelled =>
              have declared := Spelled.varInit areQualifiers isType isName isEqual
                spelled isSemicolon
              simpa using declared
        · intro r lost
          exact .lostStatement (reached.lost lost)
    · intro q lost
      exact .lostStatement (typed.lost lost)
  · intro q lost
    exact .lostStatement lost

/-- An assignment operator is `=` or the compound of an operator. -/
theorem TokenType.equal_or_compound {type : TokenType} (isAssign : type.isAssign) :
    type = .equal ∨ ∃ op : BinaryOp, type ≠ .equal ∧ type.toBinaryOp = some op ∧
      op.compoundToken = some type := by
  cases type <;> first
    | exact .inl rfl
    | exact .inr ⟨_, by decide, rfl, rfl⟩
    | cases isAssign

theorem assignedValue_spelled {nameToken opToken : Token} (semicolon : Token) (rhs : Expr)
    (tokens : List Token) (isName : nameToken.type = .identifier)
    (isAssign : opToken.type.isAssign) :
    ∃ value, assignedValue nameToken opToken rhs = some value ∧
      (Spelled (.expression 0 rhs) tokens → semicolon.type = .semicolon →
        Spelled
          (.statement (.varAssign
            { base := { span := nameToken.span }
              name := nameToken.value
              value := value }))
          (nameToken :: opToken :: tokens ++ [semicolon])) := by
  unfold assignedValue
  rcases TokenType.equal_or_compound isAssign with isEqual | ⟨op, notEqual, toOp, isOperator⟩
  · rw [if_neg (not_not_intro isEqual)]
    exact ⟨rhs, rfl, .assign isName isEqual⟩
  · rw [if_pos notEqual, toOp]
    exact ⟨_, rfl, .compound isName isOperator⟩

theorem parseVarAssign_reads {fuel : Nat} {p : Parser} (placed : p.Placed)
    (isName : p.peek.type = .identifier) (isAssign : p.peekNext.type.isAssign)
    (enough : 16 * p.rest.length ≤ fuel) :
    Runs (parseVarAssign fuel) p (Reads 1 (fun stmt => Spelled (.statement stmt)) p) := by
  have first := Parser.Reached.token placed (by simp [isName])
  have isNext : (p.skip 1).peek = p.peekNext := rfl
  have notEnd : (p.skip 1).peek.type ≠ .eof := by
    rw [isNext]
    intro isEnd
    simp [isEnd, TokenType.isAssign] at isAssign
  have second := first.step notEnd
  have passed := second.passed
  unfold parseVarAssign
  apply Runs.advance (by simp [isName])
  apply Runs.advance notEnd
  apply Runs.read ((expressionReads fuel).expression _ second.placed (by omega))
  · intro q lost
    exact .lostStatement (second.lost lost)
  · intro rhs q consumed third spelled
    have reached := second.then_ third
    rcases assignedValue_spelled q.peek rhs consumed isName
      isAssign with ⟨value, isValue, assigned⟩
    dsimp only
    rw [isNext, isValue]
    apply Runs.expect reached.placed
    · intro isSemicolon
      exact .pure (.found (reached.step (by simp [isSemicolon])) (by omega) fun clean =>
        assigned (spelled clean) isSemicolon)
    · intro r lost
      exact .lostStatement (reached.lost lost)

/-- The part of a `return` between the keyword and the semicolon. -/
inductive ReturnValueSpelled : Option Expr → List Token → Prop
  | none : ReturnValueSpelled none []
  | some {value : Expr} {tokens : List Token}
      (spelled : Spelled (.expression 0 value) tokens) :
      ReturnValueSpelled (some value) tokens

theorem parseReturnValue_reads {fuel : Nat} {p : Parser} (placed : p.Placed)
    (enough : 16 * p.rest.length + 15 ≤ fuel) :
    Runs (parseReturnValue fuel) p (Reads 0 ReturnValueSpelled p) := by
  unfold parseReturnValue
  apply Runs.peek
  split
  · apply Runs.read ((expressionReads fuel).expression p placed enough)
    · intro q lost
      exact .lost lost
    · intro value q consumed reached spelled
      exact .pure (.found reached (by omega) fun clean => .some (spelled clean))
  · exact .pure (.found (.start placed) le_rfl fun _ => .none)

theorem parseReturn_reads {fuel : Nat} {p : Parser} (placed : p.Placed)
    (isReturn : p.peek.type = .kwReturn) (enough : 16 * p.rest.length ≤ fuel) :
    Runs (parseReturn fuel) p (Reads 1 (fun stmt => Spelled (.statement stmt)) p) := by
  have first := Parser.Reached.token placed (by simp [isReturn])
  have passed := first.passed
  unfold parseReturn
  apply Runs.advance (by simp [isReturn])
  apply Runs.read (parseReturnValue_reads first.placed (by omega))
  · intro q lost
    exact .lostStatement (first.lost lost)
  · intro value q consumed second returned
    have reached := first.then_ second
    apply Runs.expect reached.placed
    · intro isSemicolon
      refine .pure (.found (reached.step (by simp [isSemicolon])) (by omega) ?_)
      intro clean
      cases returned clean with
      | none => exact .returnNothing isReturn isSemicolon
      | some spelled => exact .returnValue isReturn spelled isSemicolon
    · intro r lost
      exact .lostStatement (reached.lost lost)

/-! ## Statements -/

/-- What the statement parsers read on a given fuel. -/
structure StatementReads (fuel : Nat) : Prop where
  statement : ∀ p, p.Placed → 16 * p.rest.length + 16 ≤ fuel →
    Runs (parseStatement fuel) p (Reads 1 (fun stmt => Spelled (.statement stmt)) p)
  decl : ∀ p, p.Placed → 16 * p.rest.length + 3 ≤ fuel →
    Runs (parseDecl fuel) p (Reads 1 (fun stmt => Spelled (.statement stmt)) p)
  funcDecl : ∀ p qualTokens, p.Placed → p.peek.type = .kwFn →
    AreQualifiers qualTokens → 16 * p.rest.length + 2 ≤ fuel →
    Runs (parseFuncDecl fuel (.ofTokens qualTokens)) p
      (Reads 1 (fun stmt tokens => Spelled (.statement stmt) (qualTokens ++ tokens)) p)
  ifStmt : ∀ p, p.Placed → p.peek.type = .kwIf → 16 * p.rest.length + 1 ≤ fuel →
    Runs (parseIf fuel) p (Reads 1 (fun stmt => Spelled (.conditional stmt)) p)
  whileStmt : ∀ p, p.Placed → p.peek.type = .kwWhile → 16 * p.rest.length + 1 ≤ fuel →
    Runs (parseWhile fuel) p (Reads 1 (fun stmt => Spelled (.statement stmt)) p)
  block : ∀ p, p.Placed → 16 * p.rest.length + 2 ≤ fuel →
    Runs (parseBlock fuel) p (Reads 1 (fun stmt => Spelled (.block stmt)) p)
  blockLoop : ∀ p, p.Placed → 16 * p.rest.length + 17 ≤ fuel →
    Runs (parseBlockLoop fuel) p fun statements q =>
      ∃ consumed, p.Reached 0 consumed q ∧
        (q.Clean → Spelled (.statements statements) consumed)

section Statement

variable {fuel : Nat} (ih : StatementReads fuel) {p : Parser} (placed : p.Placed)

include ih placed

theorem parseStatement_reads (enough : 16 * p.rest.length + 16 ≤ fuel + 1) :
    Runs (parseStatement (fuel + 1)) p
      (Reads 1 (fun stmt => Spelled (.statement stmt)) p) := by
  have weaken : ∀ {spells : Stmt → List Token → Prop},
      (∀ stmt tokens, spells stmt tokens → Spelled (.statement stmt) tokens) →
      ∀ result q, Reads 1 spells p result q →
        Reads 1 (fun stmt => Spelled (.statement stmt)) p result q := by
    intro spells spelled result q reads
    exact reads.after (.start placed) (by omega) fun _ => spelled
  unfold parseStatement
  apply Runs.peek
  apply Runs.peekNext
  split
  · exact ih.decl p placed (by omega)
  · split
    · rename_i assigns
      rw [Bool.and_eq_true] at assigns
      exact parseVarAssign_reads placed (by simpa [TokenType.isIdent] using assigns.1)
        assigns.2 (by omega)
    · split
      · exact (ih.block p placed (by omega)).mono (weaken fun _ _ => .ofBlock)
      · split
        · rename_i isIf
          exact (ih.ifStmt p placed (by simpa [TokenType.isIf] using isIf)
            (by omega)).mono (weaken fun _ _ => .ofConditional)
        · split
          · rename_i isWhile
            exact ih.whileStmt p placed (by simpa [TokenType.isWhile] using isWhile)
              (by omega)
          · split
            · rename_i isReturn
              exact parseReturn_reads placed
                (by simpa [TokenType.isReturn] using isReturn) (by omega)
            · exact parseExprStmt_reads placed (by omega)

theorem parseDecl_reads (enough : 16 * p.rest.length + 3 ≤ fuel + 1) :
    Runs (parseDecl (fuel + 1)) p
      (Reads 1 (fun stmt => Spelled (.statement stmt)) p) := by
  unfold parseDecl
  apply (parseQualifiers_reads placed (by omega)).andThen
  rintro quals q ⟨consumed, first, areQualifiers, rfl⟩
  have passed := first.passed
  apply Runs.peek
  split
  · rename_i isFn
    refine (ih.funcDecl q consumed first.placed (by simpa [TokenType.isFn] using isFn)
      areQualifiers (by omega)).mono ?_
    intro result r reads
    exact reads.after first (by omega) fun _ _ _ => id
  · split
    · refine (parseVarDecl_reads first.placed (by omega) areQualifiers).mono ?_
      intro result r reads
      exact reads.after first (by omega) fun _ _ _ => id
    · apply Runs.reportUnexpected first.placed
      intro r lost
      exact .lostStatement (first.lost lost)

theorem parseFuncDecl_reads {qualTokens : List Token} (isFn : p.peek.type = .kwFn)
    (areQualifiers : AreQualifiers qualTokens)
    (enough : 16 * p.rest.length + 2 ≤ fuel + 1) :
    Runs (parseFuncDecl (fuel + 1) (.ofTokens qualTokens)) p
      (Reads 1 (fun stmt tokens => Spelled (.statement stmt) (qualTokens ++ tokens)) p) := by
  unfold parseFuncDecl
  apply Runs.read (parseFuncHeader_reads placed isFn (by omega) areQualifiers)
  · intro q lost
    exact .lostStatement lost
  · intro func q consumed first header
    have passed := first.passed
    apply Runs.peek
    split
    · apply Runs.read (ih.block q first.placed (by omega))
      · intro r lost
        exact .lostStatement (first.lost lost)
      · intro body r further second spelled
        refine .pure (.found (first.then_ second) (by omega) ?_)
        intro clean
        rw [← List.append_assoc]
        exact .defined (header (second.moves.clean clean)) (spelled clean)
    · split
      · rename_i isSemicolon
        have notEnd : q.peek.type ≠ .eof := by simp [isSemicolon]
        apply Runs.advance notEnd
        refine .pure (.found (first.step notEnd) (by omega) ?_)
        intro clean
        rw [← List.append_assoc]
        exact .declared (header clean) isSemicolon
      · apply Runs.reportUnexpected first.placed
        intro r lost
        exact .lostStatement (first.lost lost)

theorem parseIf_reads (isIf : p.peek.type = .kwIf)
    (enough : 16 * p.rest.length + 1 ≤ fuel + 1) :
    Runs (parseIf (fuel + 1)) p (Reads 1 (fun stmt => Spelled (.conditional stmt)) p) := by
  have first := Parser.Reached.token placed (by simp [isIf])
  have passed := first.passed
  unfold parseIf
  apply Runs.advance (by simp [isIf])
  apply Runs.read ((expressionReads fuel).expression _ first.placed (by omega))
  · intro q lost
    exact .lostStatement (first.lost lost)
  · intro condition q conditionTokens second conditionSpelled
    have tested := first.then_ second
    have passed := tested.passed
    apply Runs.read (ih.block q tested.placed (by omega))
    · intro r lost
      exact .lostStatement (tested.lost lost)
    · intro branchThen r thenTokens third thenSpelled
      have chosen := tested.then_ third
      apply Runs.match_
      · intro isElse
        have reached := chosen.step (by simp [isElse])
        have passed := reached.passed
        apply Runs.peek
        have branch : Runs
            (if (r.skip 1).peek.type = .kwIf then parseIf fuel else parseBlock fuel)
            (r.skip 1)
            (Reads 1 (fun stmt tokens => Spelled (.conditional stmt) tokens ∨
              Spelled (.block stmt) tokens) (r.skip 1)) := by
          split
          · rename_i isIf
            refine (ih.ifStmt _ reached.placed isIf (by omega)).mono ?_
            intro result q reads
            exact reads.after (.start reached.placed) (by omega) fun _ _ _ => .inl
          · refine (ih.block _ reached.placed (by omega)).mono ?_
            intro result q reads
            exact reads.after (.start reached.placed) (by omega) fun _ _ _ => .inr
        apply Runs.read branch
        · intro final lost
          exact .lostStatement (reached.lost lost)
        · intro branchElse final elseTokens fourth elseSpelled
          refine .pure (.found (reached.then_ fourth) (by omega) ?_)
          intro clean
          have thenClean := fourth.moves.clean clean
          have conditionClean := third.moves.clean thenClean
          have tokens : [p.peek] ++ conditionTokens ++ thenTokens ++ [r.peek] ++
              elseTokens =
            p.peek :: conditionTokens ++ thenTokens ++ r.peek :: elseTokens := by simp
          rw [tokens]
          rcases elseSpelled clean with isConditional | isBlock
          · exact .elseIf isIf (conditionSpelled conditionClean) (thenSpelled thenClean)
              isElse isConditional
          · exact .ifElse isIf (conditionSpelled conditionClean) (thenSpelled thenClean)
              isElse isBlock
      · intro
        exact .pure (.found chosen (by omega) fun clean =>
          .ifOnly isIf (conditionSpelled (third.moves.clean clean)) (thenSpelled clean))

theorem parseWhile_reads (isWhile : p.peek.type = .kwWhile)
    (enough : 16 * p.rest.length + 1 ≤ fuel + 1) :
    Runs (parseWhile (fuel + 1)) p
      (Reads 1 (fun stmt => Spelled (.statement stmt)) p) := by
  have first := Parser.Reached.token placed (by simp [isWhile])
  have passed := first.passed
  unfold parseWhile
  apply Runs.advance (by simp [isWhile])
  apply Runs.read ((expressionReads fuel).expression _ first.placed (by omega))
  · intro q lost
    exact .lostStatement (first.lost lost)
  · intro condition q conditionTokens second conditionSpelled
    have tested := first.then_ second
    have passed := tested.passed
    apply Runs.read (ih.block q tested.placed (by omega))
    · intro r lost
      exact .lostStatement (tested.lost lost)
    · intro branchDo r doTokens third doSpelled
      exact .pure (.found (tested.then_ third) (by omega) fun clean =>
        .while_ isWhile (conditionSpelled (third.moves.clean clean)) (doSpelled clean))

theorem parseBlock_reads (enough : 16 * p.rest.length + 2 ≤ fuel + 1) :
    Runs (parseBlock (fuel + 1)) p (Reads 1 (fun stmt => Spelled (.block stmt)) p) := by
  unfold parseBlock
  apply Runs.peek
  apply Runs.expect placed
  · intro isOpening
    have first := Parser.Reached.token placed (by simp [isOpening])
    have passed := first.passed
    apply (ih.blockLoop _ first.placed (by omega)).andThen
    rintro statements q ⟨consumed, second, spelled⟩
    have reached := first.then_ second
    apply Runs.expect reached.placed
    · intro isClosing
      exact .pure (.found (reached.step (by simp [isClosing])) (by omega) fun clean =>
        .block isOpening (spelled clean) isClosing)
    · intro r lost
      exact .lostStatement (reached.lost lost)
  · intro q lost
    exact .lostStatement lost

theorem parseBlockLoop_reads (enough : 16 * p.rest.length + 17 ≤ fuel + 1) :
    Runs (parseBlockLoop (fuel + 1)) p fun statements q =>
      ∃ consumed, p.Reached 0 consumed q ∧
        (q.Clean → Spelled (.statements statements) consumed) := by
  unfold parseBlockLoop
  apply Runs.peek
  split
  · rename_i more
    have notEnd : p.peek.type ≠ .eof := by
      rw [Bool.and_eq_true] at more
      simpa using more.2
    apply Runs.get
    apply Runs.read (ih.statement p placed (by omega))
    · intro q lost
      apply Runs.resume lost.1 notEnd
      intro r moves shorter
      apply (ih.blockLoop r moves.placed (by omega)).mono
      rintro statements final ⟨consumed, reached, -⟩
      have stillLost := (lost.then_ moves).then_ reached.moves
      exact ⟨[], stillLost.reached, fun clean => absurd clean stillLost.2⟩
    · intro stmt q consumed first spelled
      have passed := first.passed
      apply (ih.blockLoop q first.placed (by omega)).andThen
      rintro statements r ⟨further, second, othersSpelled⟩
      refine .pure ⟨_, (first.then_ second).weaken (Nat.zero_le _), ?_⟩
      intro clean
      exact .moreStatements (spelled (second.moves.clean clean)) (othersSpelled clean)
  · exact .pure ⟨[], .start placed, fun _ => .noStatements⟩

end Statement

theorem statementReads (fuel : Nat) : StatementReads fuel := by
  induction fuel with
  | zero =>
      constructor
      all_goals
        intros
        omega
  | succ fuel ih =>
      constructor
      case statement =>
        intro p placed enough
        exact parseStatement_reads ih placed enough
      case decl =>
        intro p placed enough
        exact parseDecl_reads ih placed enough
      case funcDecl =>
        intro p qualTokens placed isFn areQualifiers enough
        exact parseFuncDecl_reads ih placed isFn areQualifiers enough
      case ifStmt =>
        intro p placed isIf enough
        exact parseIf_reads ih placed isIf enough
      case whileStmt =>
        intro p placed isWhile enough
        exact parseWhile_reads ih placed isWhile enough
      case block =>
        intro p placed enough
        exact parseBlock_reads ih placed enough
      case blockLoop =>
        intro p placed enough
        exact parseBlockLoop_reads ih placed enough

end Sulfur
