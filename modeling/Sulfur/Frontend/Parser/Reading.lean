import Sulfur.Frontend.Parser.Statement

/-!
# Runs of the parser

What a parse function does from a cursor in front of the end of file: it returns,
it moves the cursor forward and not past the end, and it takes no error out of
the log.  The rules below step through the functions of the parser one primitive
at a time.
-/

namespace Sulfur

/-! ## Token lists of the lexer -/

/-- The end of file closes the list, and the lexer has reported none of the tokens. -/
def Ended (tokens : List Token) : Prop :=
  ∃ body last, tokens = body ++ [last] ∧ last.type = .eof ∧
    ∀ token ∈ body, token.type ≠ .eof ∧ token.type ≠ .undefined

namespace Ended

theorem cons_cases {token : Token} {rest : List Token} (ended : Ended (token :: rest)) :
    (token.type = .eof ∧ rest = []) ∨
      (token.type ≠ .eof ∧ token.type ≠ .undefined ∧ Ended rest) := by
  rcases ended with ⟨body, last, split, isEnd, defined⟩
  cases body with
  | nil =>
      rcases List.cons_eq_cons.mp split with ⟨rfl, rfl⟩
      exact Or.inl ⟨isEnd, rfl⟩
  | cons first others =>
      rcases List.cons_eq_cons.mp split with ⟨rfl, rfl⟩
      rw [List.forall_mem_cons] at defined
      exact Or.inr ⟨defined.1.1, defined.1.2, others, last, rfl, isEnd, defined.2⟩

theorem ne_nil {tokens : List Token} (ended : Ended tokens) : tokens ≠ [] := by
  rcases ended with ⟨body, last, rfl, -⟩
  simp

end Ended

namespace Parser

/-- The tokens from the cursor on. -/
def rest (p : Parser) : List Token :=
  p.tokens.drop p.current

/-- The cursor stands in front of the end of file, or on it. -/
def Placed (p : Parser) : Prop :=
  Ended p.rest

/-- No error has been logged. -/
def Clean (p : Parser) : Prop :=
  Log.hadErrors p.log = false

theorem rest_skip (p : Parser) (count : Nat) : (p.skip count).rest = p.rest.drop count := by
  simp [rest, skip, List.drop_drop]

@[simp]
theorem rest_report (p : Parser) (diagnostic : Diagnostic) :
    (p.report diagnostic).rest = p.rest := rfl

@[simp]
theorem placed_report (p : Parser) (diagnostic : Diagnostic) :
    (p.report diagnostic).Placed ↔ p.Placed := Iff.rfl

@[simp]
theorem clean_skip (p : Parser) (count : Nat) : (p.skip count).Clean ↔ p.Clean := Iff.rfl

theorem not_clean_report (p : Parser) {diagnostic : Diagnostic} (isError : diagnostic.isError) :
    ¬(p.report diagnostic).Clean := by
  simp [Clean, report, isError]

theorem clean_of_report {p : Parser} {diagnostic : Diagnostic}
    (clean : (p.report diagnostic).Clean) : p.Clean := by
  simp only [Clean, report, Log.hadErrors_append, Bool.or_eq_false_iff] at clean
  exact clean.1

namespace Placed

variable {p : Parser} (placed : p.Placed)

include placed

theorem rest_eq : p.rest = p.peek :: (p.skip 1).rest := by
  have inRange : p.current < p.tokens.length := by
    by_contra outside
    apply placed.ne_nil
    simpa [rest] using outside
  have peek : p.peek = p.tokens[p.current] := by
    simp [Parser.peek, peekAt, List.getD_eq_getElem?_getD, inRange]
  rw [peek, rest_skip, rest, List.drop_drop]
  exact List.drop_eq_getElem_cons inRange

theorem length_rest : p.rest.length = (p.skip 1).rest.length + 1 := by
  rw [placed.rest_eq, List.length_cons]

theorem defined : p.peek.type ≠ .undefined := by
  have ended : Ended (p.peek :: (p.skip 1).rest) := by
    rw [← placed.rest_eq]
    exact placed
  rcases ended.cons_cases with ⟨isEnd, -⟩ | ⟨-, defined, -⟩
  · simp [isEnd]
  · exact defined

theorem skip (more : p.peek.type ≠ .eof) : (p.skip 1).Placed := by
  have ended : Ended (p.peek :: (p.skip 1).rest) := by
    rw [← placed.rest_eq]
    exact placed
  rcases ended.cons_cases with ⟨isEnd, -⟩ | ⟨-, -, rest⟩
  · exact absurd isEnd more
  · exact rest

end Placed

/-- What every parse function does to the state. -/
structure Moves (p q : Parser) : Prop where
  placed : q.Placed
  tokens : q.tokens = p.tokens
  forward : p.current ≤ q.current
  clean : q.Clean → p.Clean

namespace Moves

variable {p q r : Parser}

theorem refl (placed : p.Placed) : Moves p p :=
  ⟨placed, rfl, le_rfl, id⟩

theorem trans (first : Moves p q) (second : Moves q r) : Moves p r where
  placed := second.placed
  tokens := second.tokens.trans first.tokens
  forward := first.forward.trans second.forward
  clean := first.clean ∘ second.clean

theorem report (placed : p.Placed) (diagnostic : Diagnostic) :
    Moves p (p.report diagnostic) :=
  ⟨placed, rfl, le_rfl, clean_of_report⟩

theorem skip (placed : p.Placed) (more : p.peek.type ≠ .eof) : Moves p (p.skip 1) :=
  ⟨placed.skip more, rfl, Nat.le_add_right _ _, id⟩

theorem advanced (placed : p.Placed) : Moves p p.advanced := by
  unfold Parser.advanced
  by_cases more : p.peek.type ≠ .eof
  · rw [if_pos more]
    exact .skip placed more
  · rw [if_neg more]
    exact .refl placed

/-- A recovery loop that stops in front of the end of file, or on it. -/
theorem recover {count : Nat} (inside : Ended (p.rest.drop count)) :
    Moves p (p.skip count) := by
  refine ⟨?_, rfl, Nat.le_add_right _ _, id⟩
  rw [Placed, rest_skip]
  exact inside

theorem suffix (moves : Moves p q) : q.rest <:+ p.rest := by
  unfold Parser.rest
  rw [moves.tokens]
  exact List.drop_suffix_drop_left _ moves.forward

theorem length_le (moves : Moves p q) : q.rest.length ≤ p.rest.length :=
  moves.suffix.length_le

/-- A cursor that has moved has passed a token. -/
theorem length_lt (moves : Moves p q) (moved : q.current ≠ p.current) :
    q.rest.length < p.rest.length := by
  have nonempty : q.rest.length ≠ 0 := by
    simpa using moves.placed.ne_nil
  have forward := moves.forward
  unfold Parser.rest at nonempty ⊢
  rw [moves.tokens] at nonempty ⊢
  rw [List.length_drop] at nonempty ⊢
  rw [List.length_drop]
  omega

end Moves

/-- A parse function that has given up: an error is in the log. -/
def Lost (p q : Parser) : Prop :=
  Moves p q ∧ ¬q.Clean

namespace Lost

variable {p q r : Parser}

theorem after (lost : Lost q r) (moves : Moves p q) : Lost p r :=
  ⟨moves.trans lost.1, lost.2⟩

theorem then_ (lost : Lost p q) (moves : Moves q r) : Lost p r :=
  ⟨lost.1.trans moves, fun clean => lost.2 (moves.clean clean)⟩

theorem report (placed : p.Placed) {diagnostic : Diagnostic}
    (isError : diagnostic.isError) : Lost p (p.report diagnostic) :=
  ⟨.report placed diagnostic, not_clean_report p isError⟩

end Lost

/-- The cursor has passed some tokens, at least so many.  When no error has been
logged, they are the given ones. -/
structure Reached (p : Parser) (passed : Nat) (consumed : List Token) (q : Parser) :
    Prop where
  moves : Moves p q
  passed : q.rest.length + passed ≤ p.rest.length
  split : q.Clean → p.rest = consumed ++ q.rest

namespace Reached

variable {p q r : Parser} {passed more : Nat} {consumed further : List Token}

theorem start (placed : p.Placed) : Reached p 0 [] p :=
  ⟨.refl placed, le_rfl, fun _ => rfl⟩

theorem then_ (first : Reached p passed consumed q) (second : Reached q more further r) :
    Reached p (passed + more) (consumed ++ further) r where
  moves := first.moves.trans second.moves
  passed := by
    have firstPassed := first.passed
    have secondPassed := second.passed
    omega
  split clean := by
    rw [first.split (second.moves.clean clean), second.split clean, List.append_assoc]

theorem token (placed : p.Placed) (notEnd : p.peek.type ≠ .eof) :
    Reached p 1 [p.peek] (p.skip 1) where
  moves := .skip placed notEnd
  passed := placed.length_rest.ge
  split _ := placed.rest_eq

theorem placed (reached : Reached p passed consumed q) : q.Placed :=
  reached.moves.placed

/-- The token under the cursor is passed as well. -/
theorem step (reached : Reached p passed consumed q) (notEnd : q.peek.type ≠ .eof) :
    Reached p (passed + 1) (consumed ++ [q.peek]) (q.skip 1) :=
  reached.then_ (.token reached.placed notEnd)

theorem lost (reached : Reached p passed consumed q) (lost : Lost q r) : Lost p r :=
  lost.after reached.moves

theorem weaken (reached : Reached p passed consumed q) (fewer : more ≤ passed) :
    Reached p more consumed q :=
  ⟨reached.moves, by have := reached.passed; omega, reached.split⟩

end Reached

end Parser

theorem ended_drop_recoverExpression {tokens : List Token} (ended : Ended tokens) :
    Ended (tokens.drop (recoverExpressionCount tokens)) := by
  induction tokens with
  | nil => exact ended
  | cons token rest inductionHypothesis =>
      unfold recoverExpressionCount
      rcases ended.cons_cases with ⟨isEnd, -⟩ | ⟨-, -, restEnded⟩
      · rw [isEnd]
        exact ended
      · split
        all_goals first
          | exact ended
          | exact inductionHypothesis restEnded

theorem ended_drop_recoverStatement {tokens : List Token} (ended : Ended tokens) :
    Ended (tokens.drop (recoverStatementCount tokens)) := by
  induction tokens with
  | nil => exact ended
  | cons token rest inductionHypothesis =>
      unfold recoverStatementCount
      rcases ended.cons_cases with ⟨isEnd, -⟩ | ⟨-, -, restEnded⟩
      · rw [isEnd]
        exact ended
      · split
        all_goals first
          | exact ended
          | exact restEnded
          | exact inductionHypothesis restEnded

theorem ended_drop_recoverTopLevel {tokens : List Token} (ended : Ended tokens) (depth : Nat) :
    Ended (tokens.drop (recoverTopLevelCount depth tokens)) := by
  induction tokens generalizing depth with
  | nil => exact ended
  | cons token rest inductionHypothesis =>
      unfold recoverTopLevelCount
      rcases ended.cons_cases with ⟨isEnd, -⟩ | ⟨-, -, restEnded⟩
      · rw [isEnd]
        exact ended
      · split
        case h_4 =>
          split
          · exact restEnded
          · exact inductionHypothesis restEnded _
        all_goals first
          | exact ended
          | exact inductionHypothesis restEnded _
          | split
            · exact ended
            · exact inductionHypothesis restEnded _

theorem Parser.Moves.recoverExpression {p : Parser} (placed : p.Placed) :
    p.Moves (p.skip (recoverExpressionCount (p.tokens.drop p.current))) :=
  .recover (ended_drop_recoverExpression placed)

theorem Parser.Moves.recoverStatement {p : Parser} (placed : p.Placed) :
    p.Moves (p.skip (recoverStatementCount (p.tokens.drop p.current))) :=
  .recover (ended_drop_recoverStatement placed)

theorem Parser.Moves.recoverTopLevel {p : Parser} (placed : p.Placed) :
    p.Moves (p.advanced.skip
      (recoverTopLevelCount 0 (p.advanced.tokens.drop p.advanced.current))) := by
  have advanced := Parser.Moves.advanced placed
  exact advanced.trans (.recover (ended_drop_recoverTopLevel advanced.placed 0))

/-! ## Runs -/

/-- The parse function returns from the state, with a result and a state after of
which the postcondition holds. -/
def Runs {α : Type} (parse : ParseM α) (p : Parser) (post : α → Parser → Prop) : Prop :=
  ∃ result q, parse p = some (result, q) ∧ post result q

namespace Runs

variable {α β : Type} {p : Parser} {post : β → Parser → Prop}

theorem pure {result : β} (holds : post result p) : Runs (Pure.pure result) p post :=
  ⟨result, p, rfl, holds⟩

theorem bind {parse : ParseM α} {next : α → ParseM β}
    (run : Runs parse p fun result q => Runs (next result) q post) :
    Runs (parse >>= next) p post := by
  rcases run with ⟨value, q, first, result, r, second, holds⟩
  refine ⟨result, r, ?_, holds⟩
  change (parse p).bind _ = _
  rw [first]
  exact second

theorem mono {parse : ParseM β} {stronger : β → Parser → Prop} (run : Runs parse p stronger)
    (weaker : ∀ result q, stronger result q → post result q) : Runs parse p post := by
  rcases run with ⟨result, q, returned, holds⟩
  exact ⟨result, q, returned, weaker result q holds⟩

/-- A run of a part, whose result the rest goes on with. -/
theorem andThen {parse : ParseM α} {next : α → ParseM β} {between : α → Parser → Prop}
    (first : Runs parse p between)
    (second : ∀ result q, between result q → Runs (next result) q post) :
    Runs (parse >>= next) p post :=
  bind (first.mono second)

theorem peek {next : Token → ParseM β} (run : Runs (next p.peek) p post) :
    Runs (parserPeek >>= next) p post :=
  bind ⟨p.peek, p, rfl, run⟩

theorem peekNext {next : Token → ParseM β} (run : Runs (next p.peekNext) p post) :
    Runs (parserPeekNext >>= next) p post :=
  bind ⟨p.peekNext, p, rfl, run⟩

theorem get {next : Parser → ParseM β} (run : Runs (next p) p post) :
    Runs (MonadState.get >>= next) p post :=
  bind ⟨p, p, rfl, run⟩

theorem update {next : PUnit → ParseM β} {change : Parser → Parser}
    (run : Runs (next ⟨⟩) (change p) post) : Runs (modify change >>= next) p post :=
  bind ⟨⟨⟩, change p, rfl, run⟩

/-- The step over a token that is not the end of file. -/
theorem advance {next : Token → ParseM β} (notEnd : p.peek.type ≠ .eof)
    (run : Runs (next p.peek) (p.skip 1) post) : Runs (parserAdvance >>= next) p post := by
  apply bind
  refine ⟨p.peek, p.skip 1, ?_, run⟩
  change some (p.peek, p.advanced) = _
  rw [Parser.advanced, if_pos notEnd]

theorem match_ {type : TokenType} {next : Bool → ParseM β}
    (matched : p.peek.type = type → Runs (next true) (p.skip 1) post)
    (other : p.peek.type ≠ type → Runs (next false) p post) :
    Runs (parserMatch type >>= next) p post := by
  apply bind
  unfold parserMatch
  apply get
  by_cases same : p.peek.type = type
  · rw [if_pos same]
    exact ⟨true, p.skip 1, rfl, matched same⟩
  · rw [if_neg same]
    exact ⟨false, p, rfl, other same⟩

theorem recoverExpression {next : PUnit → ParseM β} (placed : p.Placed)
    (run : ∀ q, p.Moves q → Runs (next ⟨⟩) q post) :
    Runs (parserRecoverExpression >>= next) p post :=
  update (run _ (.recoverExpression placed))

theorem recoverStatement {next : PUnit → ParseM β} (placed : p.Placed)
    (run : ∀ q, p.Moves q → Runs (next ⟨⟩) q post) :
    Runs (parserRecoverStatement >>= next) p post :=
  update (run _ (.recoverStatement placed))

theorem recoverTopLevel {next : PUnit → ParseM β} (placed : p.Placed)
    (run : ∀ q, p.Moves q → Runs (next ⟨⟩) q post) :
    Runs (parserRecoverTopLevel >>= next) p post :=
  update (run _ (.recoverTopLevel placed))

/-- An unexpected token is reported, as the lexer has left no undefined one. -/
theorem reportUnexpected {next : PUnit → ParseM β} {expected hint : String}
    (placed : p.Placed) (run : ∀ q, p.Lost q → Runs (next ⟨⟩) q post) :
    Runs (parserReportUnexpected p.peek expected hint >>= next) p post := by
  unfold parserReportUnexpected
  rw [if_neg placed.defined]
  exact update (run _ (.report placed rfl))

theorem expect {type : TokenType} {next : Bool → ParseM β} (placed : p.Placed)
    (found : p.peek.type = type → Runs (next true) (p.skip 1) post)
    (missing : ∀ q, p.Lost q → Runs (next false) q post) :
    Runs (parserExpect type >>= next) p post := by
  apply bind
  unfold parserExpect
  apply match_
  · intro same
    exact pure (found same)
  · intro
    apply peek
    rw [if_pos placed.defined]
    exact update (pure (missing _ (.report placed rfl)))

theorem expectIdentifier {expected hint : String} {next : Option Token → ParseM β}
    (placed : p.Placed)
    (found : p.peek.type = .identifier → Runs (next (some p.peek)) (p.skip 1) post)
    (missing : ∀ q, p.Lost q → Runs (next none) q post) :
    Runs (parserExpectIdentifier expected hint >>= next) p post := by
  apply bind
  unfold parserExpectIdentifier
  apply peek
  by_cases isName : p.peek.type = .identifier
  · rw [if_neg (not_not_intro isName)]
    apply advance (by simp [isName])
    exact pure (found isName)
  · rw [if_pos isName]
    apply reportUnexpected placed
    intro q lost
    exact pure (missing q lost)

theorem ne_eof_of_isType {type : TokenType} (isType : type.isType) : type ≠ .eof := by
  rintro rfl
  cases isType

theorem expectType {expected hint : String} {next : Option ValueType → ParseM β}
    (placed : p.Placed)
    (found : p.peek.type.isType → Runs (next (some p.peek.type.toType)) (p.skip 1) post)
    (missing : ∀ q, p.Lost q → Runs (next none) q post) :
    Runs (parserExpectType expected hint >>= next) p post := by
  apply bind
  unfold parserExpectType
  apply peek
  dsimp only
  cases isType : p.peek.type.isType with
  | false =>
      rw [if_pos ((TokenType.toType_eq_unresolved_iff _).mpr isType)]
      apply reportUnexpected placed
      intro q lost
      exact pure (missing q lost)
  | true =>
      rw [if_neg (by simp [TokenType.toType_eq_unresolved_iff, isType])]
      apply advance (ne_eof_of_isType isType)
      exact pure (found isType)

end Runs

/-! ## Reading a phrase -/

/-- The outcome of a parse function that looks for a phrase: it has given up, or
it has passed a number of tokens, and when no error has been logged they spell
its result. -/
def Reads {α : Type} (passed : Nat) (spells : α → List Token → Prop) (p : Parser) :
    Option α → Parser → Prop
  | none, q => p.Lost q
  | some value, q =>
      ∃ consumed, p.Reached passed consumed q ∧ (q.Clean → spells value consumed)

namespace Reads

variable {α : Type} {passed more total : Nat} {spells : α → List Token → Prop}
  {p q r : Parser} {result : Option α} {consumed : List Token}

/-- A phrase whose first tokens are passed already. -/
theorem after {others : α → List Token → Prop} (reads : Reads passed others q result r)
    (reached : p.Reached more consumed q) (enough : total ≤ more + passed)
    (spelled : q.Clean → ∀ value tokens, others value tokens →
      spells value (consumed ++ tokens)) :
    Reads total spells p result r := by
  cases result with
  | none => exact reached.lost reads
  | some value =>
      rcases reads with ⟨further, second, isSpelled⟩
      exact ⟨consumed ++ further, (reached.then_ second).weaken enough,
        fun clean => spelled (second.moves.clean clean) value further (isSpelled clean)⟩

/-- A phrase whose tokens are all passed. -/
theorem found {value : α} (reached : p.Reached more consumed q) (enough : total ≤ more)
    (spelled : q.Clean → spells value consumed) : Reads total spells p (some value) q :=
  ⟨consumed, reached.weaken enough, spelled⟩

end Reads

/-- A part is read and the rest goes on with it, or is told that there is none. -/
theorem Runs.read {α β : Type} {parse : ParseM (Option α)} {next : Option α → ParseM β}
    {p : Parser} {passed : Nat} {spells : α → List Token → Prop}
    {post : β → Parser → Prop}
    (first : Runs parse p (Reads passed spells p))
    (missing : ∀ q, p.Lost q → Runs (next none) q post)
    (found : ∀ value q consumed, p.Reached passed consumed q →
      (q.Clean → spells value consumed) → Runs (next (some value)) q post) :
    Runs (parse >>= next) p post := by
  apply first.andThen
  intro result q reads
  cases result with
  | none => exact missing q reads
  | some value =>
      rcases reads with ⟨consumed, reached, spelled⟩
      exact found value q consumed reached spelled

section GiveUp

variable {α : Type} {p q : Parser} {passed : Nat} {spells : α → List Token → Prop}

theorem Runs.lost (lost : p.Lost q) :
    Runs (Pure.pure none) q (Reads passed spells p) :=
  .pure lost

theorem Runs.lostExpression (lost : p.Lost q) :
    Runs (do parserRecoverExpression; return none) q (Reads passed spells p) := by
  apply Runs.recoverExpression lost.1.placed
  intro r moves
  exact .pure (lost.then_ moves)

theorem Runs.lostStatement (lost : p.Lost q) :
    Runs (do parserRecoverStatement; return none) q (Reads passed spells p) := by
  apply Runs.recoverStatement lost.1.placed
  intro r moves
  exact .pure (lost.then_ moves)

end GiveUp

/-- The loops over statements pass a token at least before they go on behind one
that was given up. -/
theorem Runs.resume {β : Type} {next : ParseM β} {p q : Parser}
    {post : β → Parser → Prop} (moves : p.Moves q) (notEnd : p.peek.type ≠ .eof)
    (run : ∀ r, q.Moves r → r.rest.length < p.rest.length → Runs next r post) :
    Runs
      (do
        if (← MonadState.get).current = p.current then
          let _ ← parserAdvance
        next)
      q post := by
  apply Runs.get
  dsimp only
  split
  · rename_i same
    have peek : q.peek = p.peek := by
      unfold Parser.peek Parser.peekAt
      rw [same, moves.tokens]
    have stillNotEnd : q.peek.type ≠ .eof := by
      rw [peek]
      exact notEnd
    apply Runs.advance stillNotEnd
    apply run _ (.skip moves.placed stillNotEnd)
    have passed := moves.placed.length_rest
    have length_le := moves.length_le
    omega
  · rename_i moved
    exact run q (.refl moves.placed) (moves.length_lt moved)

/-- Behind an error nothing is known of the tokens that were passed. -/
theorem Parser.Lost.reached {p q : Parser} (lost : p.Lost q) : p.Reached 0 [] q :=
  ⟨lost.1, lost.1.length_le, fun clean => absurd clean lost.2⟩

end Sulfur
