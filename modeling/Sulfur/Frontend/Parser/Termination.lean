import Sulfur.Frontend.Parser.Progress

/-!
# Termination of the parser

Every loop of the parser passes a token or ends, and the recursion descends through a
bounded number of functions in between.  On a list of tokens that ends with an end of
file the parser returns, and no state that it goes through is behind that end.
-/

namespace Sulfur

/-! ## Loops -/

/-- What an iteration of a loop decides: it ends the loop with a result, or it goes on
and finishes what the rest of the loop returns. -/
inductive Turn (σ β : Type)
  | exit (result : β)
  | again (next : σ) (finish : β → β)

/-- The loop behind an iteration. -/
def Turn.goOn {σ β : Type} (run : σ → ParseM β) : Turn σ β → ParseM β
  | exit result => return result
  | again next finish => do return finish (← run next)

/-- An iteration that goes on has passed a token. -/
def Turn.Strict {σ β : Type} (p : Parser) : Turn σ β → Parser → Prop
  | exit _, _ => True
  | again _ _, q => p.current < q.current

/-- The function is a loop with the iteration as its body, which passes a token or ends
the loop. -/
structure StrictLoop {σ β : Type} (run : Nat → σ → ParseM β)
    (turn : Nat → σ → ParseM (Turn σ β)) (p : Parser) : Prop where
  unrolls : ∀ fuel s, run (fuel + 1) s p = (turn fuel s >>= Turn.goOn (run fuel)) p
  strict : ∀ fuel s decision q, turn fuel s p = some (decision, q) → decision.Strict p q

/-- The body of the loop of `parse_postfix`. -/
def postfixTurn (operand : Expr) : ParseM (Turn Expr (Option Expr)) := do
  let token ← parserPeek
  if token.type = .plusPlus || token.type = .minusMinus then
    let opToken ← parserAdvance
    match opToken.type.toPostfixOp with
    | none => return .exit none
    | some op => return .again (.unary { span := opToken.span } op operand) id
  else
    return .exit (some operand)

/-- The body of the loop of `parse_cast`. -/
def castTurn (expr : Expr) : ParseM (Turn Expr (Option Expr)) := do
  let token ← parserPeek
  if token.type = .kwAs then
    let asToken ← parserAdvance
    match ← parserExpectType "a type keyword after 'as'" "use any type keyword" with
    | none =>
        parserRecoverExpression
        return .exit none
    | some target => return .again (.cast { span := asToken.span } target expr) id
  else
    return .exit (some expr)

/-- The body of the loop of `parse_binary`. -/
def binaryTurn (level : Nat) (info : BinaryLevel) (fuel : Nat) (left : Expr) :
    ParseM (Turn Expr (Option Expr)) := do
  let token ← parserPeek
  if levelHasOperator info token.type then
    let opToken ← parserAdvance
    match ← parseBinary fuel (level + 1) with
    | none => return .exit none
    | some right =>
        match opToken.type.toBinaryOp with
        | none => return .exit none
        | some op =>
            let node := .binary { span := opToken.span } op left right
            if info.chainable then
              return .again node id
            else
              return .exit (some node)
  else
    return .exit (some left)

/-- The body of the argument loop of `parse_call`. -/
def argumentsTurn (fuel : Nat) : ParseM (Turn Unit (Option (List Expr))) := do
  match ← parseExpression fuel with
  | none => return .exit none
  | some argument =>
      if ← parserMatch .comma then
        return .again () fun arguments => arguments.map (argument :: ·)
      else
        return .exit (some [argument])

/-- The body of the loop of `parse_qualifiers`. -/
def qualifiersTurn (quals : Qualifiers) : ParseM (Turn Qualifiers Qualifiers) := do
  let token ← parserPeek
  match token.type with
  | .kwMut =>
      if quals.isMutable then
        reportRepeatedQual token
      let _ ← parserAdvance
      return .again { quals with isMutable := true } id
  | .kwPub =>
      if quals.isPublic then
        reportRepeatedQual token
      let _ ← parserAdvance
      return .again { quals with isPublic := true } id
  | .kwExtern =>
      if quals.isExtern then
        reportRepeatedQual token
      let _ ← parserAdvance
      return .again { quals with isExtern := true } id
  | _ => return .exit quals

/-- The body of the parameter loop of `parse_func_decl`. -/
def parametersTurn (fuel : Nat) : ParseM (Turn Unit (Option (List Parameter))) := do
  let qualifiers ← parseQualifiers fuel
  match ← parserExpectType "a type name" "follow the language syntax" with
  | none => return .exit none
  | some type =>
      match ← parserExpectIdentifier "an identifier" "follow the language syntax" with
      | none => return .exit none
      | some nameToken =>
          let param : Parameter :=
            { type := type, name := nameToken.value, qualifiers := qualifiers }
          if ← parserMatch .comma then
            return .again () fun params => params.map (param :: ·)
          else
            return .exit (some [param])

/-- The body of the loop of `parse_block`. -/
def blockTurn (fuel : Nat) : ParseM (Turn Unit (List Stmt)) := do
  let token ← parserPeek
  if token.type ≠ .rbrace && token.type ≠ .eof then
    let start := (← get).current
    match ← parseStatement fuel with
    | some stmt => return .again () (stmt :: ·)
    | none =>
        if (← get).current = start then
          let _ ← parserAdvance
        return .again () id
  else
    return .exit []

/-- The body of the loop of `parse_import`, on the path and the mark `expect_identifier`. -/
def importTurn (path : String) (expectIdentifier : Bool) :
    ParseM (Turn (String × Bool) (Option String)) := do
  let hint := "import paths must contain valid identifiers separated by " ++
    "dots, ending with ';'"
  let token ← parserPeek
  if token.type = .semicolon then
    if expectIdentifier then
      parserReportUnexpected token "identifier" hint
      return .exit none
    else
      let _ ← parserAdvance
      return .exit (some path)
  else if expectIdentifier then
    if token.type ≠ .identifier then
      parserReportUnexpected token "identifier" hint
      return .exit none
    else
      let token ← parserAdvance
      if path.length + token.value.length ≥ importPathSize then
        return .exit none
      else
        return .again (path ++ token.value, false) id
  else if token.type ≠ .dot then
    parserReportUnexpected token "'.' or ';'" hint
    return .exit none
  else
    let _ ← parserAdvance
    if path.length + 1 ≥ importPathSize then
      return .exit none
    else
      return .again (path ++ "/", true) id

/-- The body of the loop of `sf_parse`. -/
def programTurn (fuel : Nat) (program : Program) : ParseM (Turn Program Program) := do
  let token ← parserPeek
  if token.type ≠ .eof then
    let start := (← get).current
    match ← parseTopLevel fuel with
    | some node => return .again (program.add node) id
    | none =>
        if (← get).current = start then
          let _ ← parserAdvance
        return .again program id
  else
    return .exit program

/-- The body of the loop of `sf_parser_recover_expression`. -/
def recoverExpressionTurn : ParseM (Turn Unit Unit) := do
  let token ← parserPeek
  match token.type with
  | .eof | .semicolon | .rparen | .lbrace | .rbrace | .kwAs => return .exit ()
  | _ =>
      modify fun p => p.skip 1
      return .again () id

/-- The body of the loop of `sf_parser_recover_statement`. -/
def recoverStatementTurn : ParseM (Turn Unit Unit) := do
  let token ← parserPeek
  match token.type with
  | .eof => return .exit ()
  | .semicolon =>
      modify fun p => p.skip 1
      return .exit ()
  | .kwI8 | .kwI16 | .kwI32 | .kwI64 | .kwU8 | .kwU16 | .kwU32 | .kwU64
  | .kwBool | .kwIf | .kwWhile | .kwFn | .kwReturn | .identifier
  | .lbrace | .rbrace => return .exit ()
  | _ =>
      modify fun p => p.skip 1
      return .again () id

/-- The loop of `sf_parser_recover_top_level`. -/
def recoverTopLevelLoop (depth : Nat) : ParseM Unit :=
  modify fun p => p.skip (recoverTopLevelCount depth (p.tokens.drop p.current))

/-- The body of that loop. -/
def recoverTopLevelTurn (depth : Nat) : ParseM (Turn Nat Unit) := do
  let token ← parserPeek
  match token.type with
  | .eof => return .exit ()
  | .lbrace =>
      modify fun p => p.skip 1
      return .again (depth + 1) id
  | .rbrace =>
      modify fun p => p.skip 1
      return .again (depth - 1) id
  | .semicolon =>
      modify fun p => p.skip 1
      if depth = 0 then
        return .exit ()
      else
        return .again depth id
  | .kwFn | .kwI8 | .kwI16 | .kwI32 | .kwI64 | .kwU8 | .kwU16 | .kwU32
  | .kwU64 | .kwBool =>
      if depth = 0 then
        return .exit ()
      else
        modify fun p => p.skip 1
        return .again depth id
  | _ =>
      modify fun p => p.skip 1
      return .again depth id

/-- The loops of the parser pass a token in every iteration that does not end them. -/
structure LoopsAdvance (p : Parser) : Prop where
  postfix_ : StrictLoop parsePostfixLoop (fun _ => postfixTurn) p
  cast : StrictLoop parseCastLoop (fun _ => castTurn) p
  binary : ∀ level info, StrictLoop (fun fuel => parseBinaryLoop fuel level info)
    (binaryTurn level info) p
  arguments : StrictLoop (fun fuel (_ : Unit) => parseArguments fuel)
    (fun fuel _ => argumentsTurn fuel) p
  qualifiers : StrictLoop parseQualifiersLoop (fun _ => qualifiersTurn) p
  parameters : StrictLoop (fun fuel (_ : Unit) => parseParameters fuel)
    (fun fuel _ => parametersTurn fuel) p
  block : StrictLoop (fun fuel (_ : Unit) => parseBlockLoop fuel)
    (fun fuel _ => blockTurn fuel) p
  importPath : StrictLoop (fun fuel s => parseImportLoop fuel s.1 s.2)
    (fun _ s => importTurn s.1 s.2) p
  program : StrictLoop parseLoop programTurn p
  recoverExpression : StrictLoop (fun _ (_ : Unit) => parserRecoverExpression)
    (fun _ _ => recoverExpressionTurn) p
  recoverStatement : StrictLoop (fun _ (_ : Unit) => parserRecoverStatement)
    (fun _ _ => recoverStatementTurn) p
  recoverTopLevel : StrictLoop (fun _ => recoverTopLevelLoop) (fun _ => recoverTopLevelTurn) p

@[simp]
theorem Turn.goOn_exit {σ β : Type} (run : σ → ParseM β) (result : β) :
    Turn.goOn run (.exit result) = pure result := rfl

@[simp]
theorem Turn.goOn_again {σ β : Type} (run : σ → ParseM β) (next : σ) (finish : β → β) :
    Turn.goOn run (.again next finish) = finish <$> run next := by
  rw [goOn, bind_pure_comp]

/-- A loop whose body is the iteration, when its decisions are strict. -/
theorem StrictLoop.of_yields {σ β : Type} {run : Nat → σ → ParseM β}
    {turn : Nat → σ → ParseM (Turn σ β)} {p : Parser}
    (unrolls : ∀ fuel s, run (fuel + 1) s = turn fuel s >>= Turn.goOn (run fuel))
    (strict : ∀ fuel s, Completes False (turn fuel s) p (Turn.Strict p)) :
    StrictLoop run turn p :=
  ⟨fun fuel s => congrFun (unrolls fuel s) p, fun fuel s => (strict fuel s).sound⟩

section Loops

variable {p : Parser} (stands : p.Stands)

include stands

theorem postfixTurn_strictLoop : StrictLoop parsePostfixLoop (fun _ => postfixTurn) p := by
  apply StrictLoop.of_yields
  · intro fuel operand
    rw [parsePostfixLoop, postfixTurn, bind_assoc]
    apply bind_congr
    intro token
    split
    · rw [bind_assoc]
      apply bind_congr
      intro opToken
      cases opToken.type.toPostfixOp <;> simp
    · simp
  · intro fuel operand
    unfold postfixTurn
    apply Completes.peek
    split
    · rename_i isOperator
      apply Completes.advance stands
      intro q advances further
      split
      · exact .pure trivial
      · apply Completes.pure
        apply further
        intro isEnd
        simp [isEnd] at isOperator
    · exact .pure trivial

theorem castTurn_strictLoop : StrictLoop parseCastLoop (fun _ => castTurn) p := by
  apply StrictLoop.of_yields
  · intro fuel expr
    rw [parseCastLoop, castTurn, bind_assoc]
    apply bind_congr
    intro token
    split
    · simp only [bind_assoc]
      apply bind_congr
      intro asToken
      apply bind_congr
      intro target
      cases target <;> simp
    · simp
  · intro fuel expr
    unfold castTurn
    apply Completes.peek
    split
    · apply Completes.advance stands
      intro q advances further
      apply Completes.expectType advances.stands
      · intro target r moves passed
        exact .pure (advances.forward.trans_lt passed)
      · intro r moves
        apply Completes.recoverExpression moves.stands
        exact fun t others => .pure trivial
    · exact .pure trivial

theorem binaryTurn_strictLoop (level : Nat) (info : BinaryLevel) :
    StrictLoop (fun fuel => parseBinaryLoop fuel level info) (binaryTurn level info) p := by
  apply StrictLoop.of_yields
  · intro fuel left
    rw [parseBinaryLoop, binaryTurn, bind_assoc]
    apply bind_congr
    intro token
    split
    · simp only [bind_assoc]
      apply bind_congr
      intro opToken
      apply bind_congr
      intro right
      cases right with
      | none => simp
      | some right =>
          cases opToken.type.toBinaryOp with
          | none => simp
          | some op => cases info.chainable <;> simp
    · simp
  · intro fuel left
    unfold binaryTurn
    apply Completes.peek
    split
    · apply Completes.advance stands
      intro q advances _
      apply ((expressionProgress fuel).binary q (level + 1) advances.stands).pass
        (by intro other; cases other)
      · exact fun r moves => .pure trivial
      · intro right r moves further
        dsimp only
        split
        · exact .pure trivial
        · split
          · exact .pure (advances.forward.trans_lt further)
          · exact .pure trivial
    · exact .pure trivial

theorem argumentsTurn_strictLoop : StrictLoop (fun fuel (_ : Unit) => parseArguments fuel)
    (fun fuel _ => argumentsTurn fuel) p := by
  apply StrictLoop.of_yields
  · intro fuel _
    rw [parseArguments, argumentsTurn, bind_assoc]
    apply bind_congr
    intro argument
    cases argument with
    | none => simp
    | some argument =>
        dsimp only
        rw [bind_assoc]
        apply bind_congr
        intro matched
        split
        · rw [pure_bind, Turn.goOn_again, map_eq_pure_bind]
          apply bind_congr
          intro arguments
          cases arguments <;> rfl
        · simp
  · intro fuel _
    unfold argumentsTurn
    apply ((expressionProgress fuel).expression p stands).pass nofun
    · exact fun q advances => .pure trivial
    · intro argument q advances further
      apply Completes.match_ advances.stands (by decide)
      · exact fun r moves passed => .pure (further.trans passed)
      · exact .pure trivial

theorem qualifiersTurn_strictLoop :
    StrictLoop parseQualifiersLoop (fun _ => qualifiersTurn) p := by
  apply StrictLoop.of_yields
  · intro fuel quals
    rw [parseQualifiersLoop, qualifiersTurn, bind_assoc]
    apply bind_congr
    intro token
    cases token.type
    case kwMut => cases quals.isMutable <;> simp
    case kwPub => cases quals.isPublic <;> simp
    case kwExtern => cases quals.isExtern <;> simp
    all_goals simp
  · intro fuel quals
    have step (repeated : Bool) (token : Token) (quals : Qualifiers)
        (notEnd : p.peek.type ≠ .eof) :
        Completes False
          (do
            if repeated then
              reportRepeatedQual token
            let _ ← parserAdvance
            return Turn.again (β := Qualifiers) quals id)
          p (Turn.Strict p) := by
      cases repeated with
      | false =>
          apply Completes.advance stands
          exact fun q advances further => .pure (further notEnd)
      | true =>
          apply Completes.update
          apply Completes.advance (Parser.Advances.report stands _).stands
          exact fun q advances further => .pure (further notEnd)
    unfold qualifiersTurn
    apply Completes.peek
    split
    · rename_i isMut
      exact step _ _ _ (by simp [isMut])
    · rename_i isPub
      exact step _ _ _ (by simp [isPub])
    · rename_i isExtern
      exact step _ _ _ (by simp [isExtern])
    · exact .pure trivial

theorem parametersTurn_strictLoop : StrictLoop (fun fuel (_ : Unit) => parseParameters fuel)
    (fun fuel _ => parametersTurn fuel) p := by
  apply StrictLoop.of_yields
  · intro fuel _
    rw [parseParameters, parametersTurn, bind_assoc]
    apply bind_congr
    intro qualifiers
    rw [bind_assoc]
    apply bind_congr
    intro type
    cases type with
    | none => simp
    | some type =>
        dsimp only
        rw [bind_assoc]
        apply bind_congr
        intro nameToken
        cases nameToken with
        | none => simp
        | some nameToken =>
            dsimp only
            rw [bind_assoc]
            apply bind_congr
            intro matched
            split
            · rw [pure_bind, Turn.goOn_again, map_eq_pure_bind]
              apply bind_congr
              intro params
              cases params <;> rfl
            · simp
  · intro fuel _
    unfold parametersTurn
    apply (parseQualifiers_progress stands fuel).andThen nofun
    intro qualifiers q first
    apply Completes.expectType first.stands
    · intro type r second passed
      apply Completes.expectIdentifier second.stands
      · intro nameToken t third further
        apply Completes.match_ third.stands (by decide)
        · intro u fourth last
          have forward := first.forward
          exact .pure (show p.current < u.current by omega)
        · exact .pure trivial
      · exact fun t third => .pure trivial
    · exact fun r second => .pure trivial

theorem blockTurn_strictLoop : StrictLoop (fun fuel (_ : Unit) => parseBlockLoop fuel)
    (fun fuel _ => blockTurn fuel) p := by
  apply StrictLoop.of_yields
  · intro fuel _
    rw [parseBlockLoop, blockTurn, bind_assoc]
    apply bind_congr
    intro token
    split
    · rw [bind_assoc]
      apply bind_congr
      intro start
      rw [bind_assoc]
      apply bind_congr
      intro stmt
      cases stmt with
      | some stmt => simp
      | none =>
          dsimp only
          rw [bind_assoc]
          apply bind_congr
          intro here
          split <;> simp
    · simp
  · intro fuel _
    unfold blockTurn
    apply Completes.peek
    split
    · rename_i more
      have notEnd : p.peek.type ≠ .eof := by
        rw [Bool.and_eq_true] at more
        simpa using more.2
      apply Completes.get
      apply ((statementProgress fuel).statement p stands).pass nofun
      · intro q first
        apply Completes.resume first notEnd
        exact fun r second further => .pure further
      · exact fun stmt q first further => .pure further
    · exact .pure trivial

theorem importTurn_strictLoop : StrictLoop (fun fuel s => parseImportLoop fuel s.1 s.2)
    (fun _ s => importTurn s.1 s.2) p := by
  apply StrictLoop.of_yields
  · rintro fuel ⟨path, expectIdentifier⟩
    dsimp only
    rw [parseImportLoop, importTurn, bind_assoc]
    apply bind_congr
    intro token
    split
    · cases expectIdentifier <;> simp
    · cases expectIdentifier with
      | true =>
          rw [if_pos rfl, if_pos rfl]
          split
          · simp
          · rw [bind_assoc]
            apply bind_congr
            intro token
            split <;> simp
      | false =>
          rw [if_neg Bool.false_ne_true, if_neg Bool.false_ne_true]
          split
          · simp
          · rw [bind_assoc]
            apply bind_congr
            intro _
            split <;> simp
  · rintro fuel ⟨path, expectIdentifier⟩
    have refused (got : Token) (expected hint : String) : Completes False
        (do
          parserReportUnexpected got expected hint
          return Turn.exit (σ := String × Bool) (none : Option String))
        p (Turn.Strict p) := by
      apply Completes.reportUnexpected stands
      exact fun q advances => .pure trivial
    unfold importTurn
    apply Completes.peek
    split
    · split
      · exact refused _ _ _
      · apply Completes.advance stands
        exact fun q advances _ => .pure trivial
    · split
      · split
        · exact refused _ _ _
        · rename_i isName
          apply Completes.advance stands
          intro q advances further
          split
          · exact .pure trivial
          · exact .pure (further (by simp [not_not.mp isName]))
      · split
        · exact refused _ _ _
        · rename_i isDot
          apply Completes.advance stands
          intro q advances further
          split
          · exact .pure trivial
          · exact .pure (further (by simp [not_not.mp isDot]))

theorem programTurn_strictLoop : StrictLoop parseLoop programTurn p := by
  apply StrictLoop.of_yields
  · intro fuel program
    rw [parseLoop, programTurn, bind_assoc]
    apply bind_congr
    intro token
    split
    · rw [bind_assoc]
      apply bind_congr
      intro start
      rw [bind_assoc]
      apply bind_congr
      intro node
      cases node with
      | some node => simp
      | none =>
          dsimp only
          rw [bind_assoc]
          apply bind_congr
          intro here
          split <;> simp
    · simp
  · intro fuel program
    unfold programTurn
    apply Completes.peek
    split
    · rename_i notEnd
      apply Completes.get
      apply (parseTopLevel_progress stands fuel).pass nofun
      · intro q first
        apply Completes.resume first notEnd
        exact fun r second further => .pure further
      · exact fun node q first further => .pure further
    · exact .pure trivial

theorem drop_eq : p.tokens.drop p.current = p.peek :: p.tokens.drop (p.current + 1) := by
  rcases List.getElem?_eq_some_iff.mp stands.peek_eq with ⟨inside, peek⟩
  rw [List.drop_eq_getElem_cons inside, peek]

omit stands in
theorem skip_skip (first second : Nat) : (p.skip first).skip second = p.skip (second + first) := by
  simp only [Parser.skip, Nat.add_comm second, Nat.add_assoc]

omit stands in
/-- The loop bodies of the recovery routines count the tokens that they pass. -/
theorem skip_progress {σ β : Type} (next : σ) (finish : β → β) :
    Completes False (do modify fun p => p.skip 1; return Turn.again next finish) p
      (Turn.Strict p) :=
  .update (.pure (Nat.lt_succ_self _))

theorem recoverExpressionTurn_strictLoop :
    StrictLoop (fun _ (_ : Unit) => parserRecoverExpression)
      (fun _ _ => recoverExpressionTurn) p := by
  constructor
  · intro fuel _
    have count : parserRecoverExpression p =
        some ((), p.skip (recoverExpressionCount (p.tokens.drop p.current))) := rfl
    have skipped : parserRecoverExpression (p.skip 1) =
        some ((), p.skip (recoverExpressionCount (p.tokens.drop (p.current + 1)) + 1)) := by
      rw [← skip_skip]
      rfl
    rw [count, drop_eq stands, recoverExpressionCount]
    change _ = ((match p.peek.type with
      | .eof | .semicolon | .rparen | .lbrace | .rbrace | .kwAs => return .exit ()
      | _ => do
          modify fun p => p.skip 1
          return .again () id : ParseM (Turn Unit Unit)) >>= _) p
    cases p.peek.type
    case eof | semicolon | rparen | lbrace | rbrace | kwAs => rfl
    all_goals exact skipped.symm
  · intro fuel _
    have run : Completes False recoverExpressionTurn p (Turn.Strict p) := by
      apply Completes.peek
      split
      all_goals first
        | exact .pure trivial
        | exact skip_progress _ _
    exact run.sound

theorem recoverStatementTurn_strictLoop :
    StrictLoop (fun _ (_ : Unit) => parserRecoverStatement)
      (fun _ _ => recoverStatementTurn) p := by
  constructor
  · intro fuel _
    have count : parserRecoverStatement p =
        some ((), p.skip (recoverStatementCount (p.tokens.drop p.current))) := rfl
    have skipped : parserRecoverStatement (p.skip 1) =
        some ((), p.skip (recoverStatementCount (p.tokens.drop (p.current + 1)) + 1)) := by
      rw [← skip_skip]
      rfl
    rw [count, drop_eq stands, recoverStatementCount]
    change _ = ((match p.peek.type with
      | .eof => return .exit ()
      | .semicolon => do
          modify fun p => p.skip 1
          return .exit ()
      | .kwI8 | .kwI16 | .kwI32 | .kwI64 | .kwU8 | .kwU16 | .kwU32 | .kwU64
      | .kwBool | .kwIf | .kwWhile | .kwFn | .kwReturn | .identifier
      | .lbrace | .rbrace => return .exit ()
      | _ => do
          modify fun p => p.skip 1
          return .again () id : ParseM (Turn Unit Unit)) >>= _) p
    cases p.peek.type
    case eof | semicolon | kwI8 | kwI16 | kwI32 | kwI64 | kwU8 | kwU16 | kwU32 | kwU64 | kwBool
      | kwIf | kwWhile | kwFn | kwReturn | identifier | lbrace | rbrace => rfl
    all_goals exact skipped.symm
  · intro fuel _
    have run : Completes False recoverStatementTurn p (Turn.Strict p) := by
      apply Completes.peek
      split
      all_goals first
        | exact .pure trivial
        | exact .update (.pure trivial)
        | exact skip_progress _ _
    exact run.sound

theorem recoverTopLevelTurn_strictLoop :
    StrictLoop (fun _ => recoverTopLevelLoop) (fun _ => recoverTopLevelTurn) p := by
  constructor
  · intro fuel depth
    have count : recoverTopLevelLoop depth p =
        some ((), p.skip (recoverTopLevelCount depth (p.tokens.drop p.current))) := rfl
    have skipped (depth : Nat) : recoverTopLevelLoop depth (p.skip 1) =
        some ((), p.skip (recoverTopLevelCount depth (p.tokens.drop (p.current + 1)) + 1)) := by
      rw [← skip_skip]
      rfl
    rw [count, drop_eq stands, recoverTopLevelCount]
    change _ = ((match p.peek.type with
      | .eof => return .exit ()
      | .lbrace => do
          modify fun p => p.skip 1
          return .again (depth + 1) id
      | .rbrace => do
          modify fun p => p.skip 1
          return .again (depth - 1) id
      | .semicolon => do
          modify fun p => p.skip 1
          if depth = 0 then return .exit () else return .again depth id
      | .kwFn | .kwI8 | .kwI16 | .kwI32 | .kwI64 | .kwU8 | .kwU16 | .kwU32
      | .kwU64 | .kwBool =>
          if depth = 0 then
            return .exit ()
          else do
            modify fun p => p.skip 1
            return .again depth id
      | _ => do
          modify fun p => p.skip 1
          return .again depth id : ParseM (Turn Nat Unit)) >>= _) p
    by_cases top : depth = 0
    · cases p.peek.type
      case semicolon | kwFn | kwI8 | kwI16 | kwI32 | kwI64 | kwU8 | kwU16 | kwU32 | kwU64
        | kwBool =>
        simp only [if_pos top]
        rfl
      case eof => rfl
      all_goals exact (skipped _).symm
    · cases p.peek.type
      case semicolon | kwFn | kwI8 | kwI16 | kwI32 | kwI64 | kwU8 | kwU16 | kwU32 | kwU64
        | kwBool =>
        simp only [if_neg top]
        exact (skipped _).symm
      case eof => rfl
      all_goals exact (skipped _).symm
  · intro fuel depth
    have run : Completes False (recoverTopLevelTurn depth) p (Turn.Strict p) := by
      apply Completes.peek
      split
      all_goals first
        | exact .pure trivial
        | exact skip_progress _ _
        | apply Completes.update
          split
          · exact .pure trivial
          · exact .pure (Nat.lt_succ_self _)
        | split
          · exact .pure trivial
          · exact skip_progress _ _
    exact run.sound

theorem loopsAdvance : LoopsAdvance p where
  postfix_ := postfixTurn_strictLoop stands
  cast := castTurn_strictLoop stands
  binary := binaryTurn_strictLoop stands
  arguments := argumentsTurn_strictLoop stands
  qualifiers := qualifiersTurn_strictLoop stands
  parameters := parametersTurn_strictLoop stands
  block := blockTurn_strictLoop stands
  importPath := importTurn_strictLoop stands
  program := programTurn_strictLoop stands
  recoverExpression := recoverExpressionTurn_strictLoop stands
  recoverStatement := recoverStatementTurn_strictLoop stands
  recoverTopLevel := recoverTopLevelTurn_strictLoop stands

end Loops

/-! ## Reachable states -/

/-- The functions of the parser that change its state, with their arguments.  None of them
looks for an end of file. -/
inductive Routine
  | advance
  | tokenMatch (type : TokenType) (notEnd : type ≠ .eof)
  | expect (type : TokenType) (notEnd : type ≠ .eof)
  | expectIdentifier (expected hint : String)
  | expectType (expected hint : String)
  | reportUnexpected (got : Token) (expected hint : String)
  | recoverExpression
  | recoverStatement
  | recoverTopLevel
  | expression
  | binary (level : Nat)
  | cast
  | unary
  | postfix_
  | call (nameToken : Token)
  | primary
  | qualifiers
  | exprStmt
  | varDecl (quals : Qualifiers)
  | varAssign
  | returnStmt
  | funcDecl (quals : Qualifiers)
  | decl
  | ifStmt
  | whileStmt
  | block
  | statement
  | importNode
  | topLevel
  | program (start : Program)

namespace Routine

/-- The routine, whose result is left aside. -/
def run (fuel : Nat) : Routine → ParseM Unit
  | advance => discard parserAdvance
  | tokenMatch type _ => discard (parserMatch type)
  | expect type _ => discard (parserExpect type)
  | expectIdentifier expected hint => discard (parserExpectIdentifier expected hint)
  | expectType expected hint => discard (parserExpectType expected hint)
  | reportUnexpected got expected hint => parserReportUnexpected got expected hint
  | recoverExpression => parserRecoverExpression
  | recoverStatement => parserRecoverStatement
  | recoverTopLevel => parserRecoverTopLevel
  | expression => discard (parseExpression fuel)
  | binary level => discard (parseBinary fuel level)
  | cast => discard (parseCast fuel)
  | unary => discard (parseUnary fuel)
  | postfix_ => discard (parsePostfix fuel)
  | call nameToken => discard (parseCall fuel nameToken)
  | primary => discard (parsePrimary fuel)
  | qualifiers => discard (parseQualifiers fuel)
  | exprStmt => discard (parseExprStmt fuel)
  | varDecl quals => discard (parseVarDecl fuel quals)
  | varAssign => discard (parseVarAssign fuel)
  | returnStmt => discard (parseReturn fuel)
  | funcDecl quals => discard (parseFuncDecl fuel quals)
  | decl => discard (parseDecl fuel)
  | ifStmt => discard (parseIf fuel)
  | whileStmt => discard (parseWhile fuel)
  | block => discard (parseBlock fuel)
  | statement => discard (parseStatement fuel)
  | importNode => discard (parseImport fuel)
  | topLevel => discard (parseTopLevel fuel)
  | program start => discard (parseLoop fuel start)

end Routine

/-- The states that the routines of the parser lead to, in whatever order they are called,
from its state at the first token. -/
inductive Reachable (tokens : List Token) (filename : String) : Parser → Prop
  | start : Reachable tokens filename { tokens := tokens, filename := filename }
  | call {p q : Parser} {fuel : Nat} {routine : Routine} (reached : Reachable tokens filename p)
      (returned : routine.run fuel p = some ((), q)) : Reachable tokens filename q

/-- A parse function that moves the cursor forward does so when its result is left aside. -/
theorem advances_of_discard {α : Type} {enough : Prop} {parse : ParseM α} {p q : Parser}
    (run : Completes enough parse p fun _ q => p.Advances q)
    (returned : discard parse p = some ((), q)) : p.Advances q := by
  change (parse p).bind (fun read => some ((), read.2)) = _ at returned
  rcases Option.bind_eq_some_iff.mp returned with ⟨⟨value, r⟩, first, same⟩
  rw [Option.some.injEq, Prod.mk.injEq] at same
  rw [← same.2]
  exact run.sound value r first

theorem advances_of_discard_option {α : Type} {enough : Prop} {parse : ParseM (Option α)}
    {p q : Parser} (run : Completes enough parse p (Passes p))
    (returned : discard parse p = some ((), q)) : p.Advances q :=
  advances_of_discard (run.mono id fun _ _ => And.left) returned

/-- No routine moves the cursor back or behind the first end of file. -/
theorem Routine.advances (routine : Routine) {fuel : Nat} {p q : Parser} (stands : p.Stands)
    (returned : routine.run fuel p = some ((), q)) : p.Advances q := by
  have done {α : Type} (result : α) {r : Parser} (advances : p.Advances r) :
      Completes False (pure result) r fun _ q => p.Advances q := .pure advances
  have alone {α : Type} {parse : ParseM α}
      (run : Completes False (parse >>= pure) p fun _ q => p.Advances q) :
      Completes False parse p fun _ q => p.Advances q := by
    rwa [bind_pure] at run
  cases routine with
  | advance =>
      exact advances_of_discard (alone (.advance stands fun r advances _ => done _ advances))
        returned
  | tokenMatch type notEnd =>
      exact advances_of_discard (alone (.match_ stands notEnd
        (fun r advances _ => done _ advances) (done _ (.refl stands)))) returned
  | expect type notEnd =>
      exact advances_of_discard (alone (.expect stands notEnd
        (fun r advances _ => done _ advances) fun r => done _)) returned
  | expectIdentifier expected hint =>
      exact advances_of_discard (alone (.expectIdentifier stands
        (fun token r advances _ => done _ advances) fun r => done _)) returned
  | expectType expected hint =>
      exact advances_of_discard (alone (.expectType stands
        (fun type r advances _ => done _ advances) fun r => done _)) returned
  | reportUnexpected got expected hint =>
      exact (alone (.reportUnexpected stands fun r => done _)).sound _ q returned
  | recoverExpression =>
      cases returned
      exact .recoverExpression stands
  | recoverStatement =>
      cases returned
      exact .recoverStatement stands
  | recoverTopLevel =>
      cases returned
      exact .recoverTopLevel stands
  | expression =>
      exact advances_of_discard_option ((expressionProgress fuel).expression p stands) returned
  | binary level =>
      exact advances_of_discard_option ((expressionProgress fuel).binary p level stands) returned
  | cast => exact advances_of_discard_option ((expressionProgress fuel).cast p stands) returned
  | unary => exact advances_of_discard_option ((expressionProgress fuel).unary p stands) returned
  | postfix_ =>
      exact advances_of_discard_option ((expressionProgress fuel).postfix_ p stands) returned
  | call nameToken =>
      exact advances_of_discard_option ((expressionProgress fuel).call p nameToken stands) returned
  | primary =>
      exact advances_of_discard_option ((expressionProgress fuel).primary p stands) returned
  | qualifiers => exact advances_of_discard (parseQualifiers_progress stands fuel) returned
  | exprStmt => exact advances_of_discard_option (parseExprStmt_progress stands fuel) returned
  | varDecl quals =>
      exact advances_of_discard_option (parseVarDecl_progress stands fuel quals) returned
  | varAssign => exact advances_of_discard_option (parseVarAssign_progress stands fuel) returned
  | returnStmt => exact advances_of_discard_option (parseReturn_progress stands fuel) returned
  | funcDecl quals =>
      exact advances_of_discard_option ((statementProgress fuel).funcDecl p quals stands) returned
  | decl => exact advances_of_discard_option ((statementProgress fuel).decl p stands) returned
  | ifStmt => exact advances_of_discard_option ((statementProgress fuel).ifStmt p stands) returned
  | whileStmt =>
      exact advances_of_discard_option ((statementProgress fuel).whileStmt p stands) returned
  | block => exact advances_of_discard_option ((statementProgress fuel).block p stands) returned
  | statement =>
      exact advances_of_discard_option ((statementProgress fuel).statement p stands) returned
  | importNode => exact advances_of_discard_option (parseImport_progress stands fuel) returned
  | topLevel => exact advances_of_discard_option (parseTopLevel_progress stands fuel) returned
  | program start =>
      exact advances_of_discard (parseLoop_progress stands fuel start) returned

/-- The list is not empty, and its last token is an end of file. -/
def EndsInEof (tokens : List Token) : Prop :=
  tokens.getLast?.map Token.type = some .eof

theorem stands_start {tokens : List Token} (ends : EndsInEof tokens) (filename : String) :
    Parser.Stands { tokens := tokens, filename := filename } := by
  constructor
  · rcases Option.map_eq_some_iff.mp ends with ⟨last, isLast, isEnd⟩
    exact List.findIdx_lt_length_of_exists
      ⟨last, List.mem_of_getLast? isLast, decide_eq_true isEnd⟩
  · exact Nat.zero_le _

theorem Reachable.advances {tokens : List Token} (ends : EndsInEof tokens) {filename : String}
    {p : Parser} (reached : Reachable tokens filename p) :
    Parser.Advances { tokens := tokens, filename := filename } p := by
  induction reached with
  | start => exact .refl (stands_start ends filename)
  | call _ returned inductionHypothesis =>
      exact inductionHypothesis.trans (Routine.advances _ inductionHypothesis.stands returned)

/-- What holds in every state of the parser: the cursor is on a token, it has passed no end
of file, no routine moves it back, and every loop goes on or ends. -/
structure Progressing (tokens : List Token) (p : Parser) : Prop where
  sameTokens : p.tokens = tokens
  inside : p.current < tokens.length
  notPassed : ∀ token ∈ tokens.take p.current, token.type ≠ .eof
  forward : ∀ (routine : Routine) fuel q, routine.run fuel p = some ((), q) →
    p.current ≤ q.current
  loops : LoopsAdvance p

theorem isSome_parse {tokens : List Token} (ends : EndsInEof tokens) (filename : String) :
    (parse tokens filename).isSome := by
  have start := stands_start ends filename
  unfold parse
  split
  · rfl
  · rw [Option.isSome_map]
    apply (parseLoop_progress start (parseFuel tokens) {}).returns
    have bound := start.ends.le
    unfold parseFuel Parser.left
    change _ ≤ tokens.length at bound
    omega

/-- On every list of tokens that ends with an end of file the parser returns, and it makes
progress in all of its states. -/
theorem parse_terminates {tokens : List Token} (ends : EndsInEof tokens) (filename : String) :
    (parse tokens filename).isSome ∧
      ∀ p, Reachable tokens filename p → Progressing tokens p := by
  constructor
  · exact isSome_parse ends filename
  · intro p reached
    have advances := reached.advances ends
    have sameTokens : p.tokens = tokens := advances.tokens
    have stands := advances.stands
    constructor
    · exact sameTokens
    · rw [← sameTokens]
      exact stands.before.trans_lt stands.ends
    · intro token isPassed
      rcases List.mem_take_iff_getElem.mp isPassed with ⟨index, bound, rfl⟩
      have earlier : index < tokens.findIdx (·.type = .eof) := by
        have before := stands.before
        unfold Parser.stop at before
        rw [sameTokens] at before
        omega
      exact of_decide_eq_false (List.not_of_lt_findIdx earlier)
    · intro routine fuel q returned
      exact (routine.advances stands returned).forward
    · exact loopsAdvance stands

theorem parse_terminates_unclosed :
    (parse (tokenize "fn f( { as } as as (".toList "main.slfr").tokens "main.slfr").isSome ∧
      ∀ p, Reachable (tokenize "fn f( { as } as as (".toList "main.slfr").tokens "main.slfr" p →
        Progressing (tokenize "fn f( { as } as as (".toList "main.slfr").tokens p :=
  parse_terminates (by unfold EndsInEof; decide) "main.slfr"

end Sulfur
