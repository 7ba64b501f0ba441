import Sulfur.Frontend.Parser.Soundness

/-!
# Progress of the parser

On every list of tokens with an end of file the parser returns.  Its cursor never goes
back and never passes the first end of file, whatever the other tokens are.
-/

namespace Sulfur

/-- What is found behind a start of the list is as much nearer. -/
theorem findIdx_drop {α : Type} {p : α → Bool} {list : List α} {start : Nat}
    (before : start ≤ list.findIdx p) :
    (list.drop start).findIdx p = list.findIdx p - start := by
  induction start generalizing list with
  | zero => rfl
  | succ start inductionHypothesis =>
      cases list with
      | nil => cases before
      | cons first list =>
          rw [List.findIdx_cons] at before ⊢
          cases found : p first with
          | true =>
              rw [found] at before
              cases before
          | false =>
              rw [found] at before
              rw [List.drop_succ_cons, inductionHypothesis (Nat.le_of_succ_le_succ before)]
              exact (Nat.add_sub_add_right _ 1 start).symm

namespace Parser

/-- The place of the first end of file. -/
def stop (p : Parser) : Nat :=
  p.tokens.findIdx (·.type = .eof)

/-- The tokens before the end of file that the cursor has not passed. -/
def left (p : Parser) : Nat :=
  p.stop - p.current

/-- The cursor has not passed the end of file. -/
structure Stands (p : Parser) : Prop where
  ends : p.stop < p.tokens.length
  before : p.current ≤ p.stop

/-- The cursor moves forward and does not pass the end of file. -/
structure Advances (p q : Parser) : Prop where
  tokens : q.tokens = p.tokens
  forward : p.current ≤ q.current
  stands : q.Stands

theorem Stands.peek_eq {p : Parser} (stands : p.Stands) :
    p.tokens[p.current]? = some p.peek := by
  have inside := stands.before.trans_lt stands.ends
  simp [peek, peekAt, List.getD_eq_getElem?_getD, inside]

/-- The cursor is on an end of file when it stands at the first one. -/
theorem Stands.isEnd_iff {p : Parser} (stands : p.Stands) :
    p.peek.type = .eof ↔ p.current = p.stop := by
  rcases List.getElem?_eq_some_iff.mp stands.peek_eq with ⟨inside, peek⟩
  constructor
  · intro isEnd
    by_contra differ
    have earlier : p.current < p.tokens.findIdx (·.type = .eof) :=
      lt_of_le_of_ne stands.before differ
    have notEnd := List.not_of_lt_findIdx earlier
    rw [peek, isEnd] at notEnd
    cases notEnd
  · intro atStop
    have found : p.tokens.findIdx (fun token => token.type = .eof) < p.tokens.length :=
      stands.ends
    have isEnd := of_decide_eq_true (List.findIdx_getElem (w := found))
    have peekStop := stands.peek_eq
    rw [atStop, List.getElem?_eq_getElem stands.ends, Option.some.injEq] at peekStop
    rw [← peekStop]
    exact isEnd

namespace Advances

variable {p q r : Parser}

theorem refl (stands : p.Stands) : p.Advances p :=
  ⟨rfl, le_rfl, stands⟩

theorem trans (first : p.Advances q) (second : q.Advances r) : p.Advances r :=
  ⟨second.tokens.trans first.tokens, first.forward.trans second.forward, second.stands⟩

theorem stop_eq (advances : p.Advances q) : q.stop = p.stop := by
  unfold stop
  rw [advances.tokens]

/-- What the cursor has passed is no longer left. -/
theorem balance (advances : p.Advances q) : q.left + q.current = p.left + p.current := by
  have stop := advances.stop_eq
  have before := advances.stands.before
  have forward := advances.forward
  unfold left
  omega

theorem report (stands : p.Stands) (diagnostic : Diagnostic) :
    p.Advances (p.report diagnostic) :=
  ⟨rfl, le_rfl, stands.ends, stands.before⟩

theorem skip (stands : p.Stands) (notEnd : p.peek.type ≠ .eof) : p.Advances (p.skip 1) := by
  have notStop := (not_congr stands.isEnd_iff).mp notEnd
  exact ⟨rfl, Nat.le_add_right _ _, stands.ends,
    Nat.succ_le_of_lt (lt_of_le_of_ne stands.before notStop)⟩

theorem advanced (stands : p.Stands) : p.Advances p.advanced := by
  unfold Parser.advanced
  by_cases notEnd : p.peek.type ≠ .eof
  · rw [if_pos notEnd]
    exact skip stands notEnd
  · rw [if_neg notEnd]
    exact refl stands

/-- A recovery loop passes tokens before the end of file. -/
theorem recover (stands : p.Stands) {count : Nat}
    (inside : count ≤ (p.tokens.drop p.current).findIdx (·.type = .eof)) :
    p.Advances (p.skip count) := by
  have distance : (p.tokens.drop p.current).findIdx (·.type = .eof) = p.stop - p.current :=
    findIdx_drop stands.before
  have before := stands.before
  refine ⟨rfl, Nat.le_add_right _ _, stands.ends, ?_⟩
  change p.current + count ≤ p.stop
  omega

end Advances

end Parser

/-! ## Recovery -/

/-- A token before the end of file is passed. -/
theorem succ_le_findIdx {token : Token} (notEnd : token.type ≠ .eof) {rest : List Token}
    {count : Nat} (inside : count ≤ rest.findIdx (·.type = .eof)) :
    count + 1 ≤ (token :: rest).findIdx (·.type = .eof) := by
  rw [List.findIdx_cons, decide_eq_false notEnd]
  exact Nat.succ_le_succ inside

theorem recoverExpressionCount_le (tokens : List Token) :
    recoverExpressionCount tokens ≤ tokens.findIdx (·.type = .eof) := by
  induction tokens with
  | nil => exact Nat.zero_le _
  | cons token rest inductionHypothesis =>
      unfold recoverExpressionCount
      by_cases isEnd : token.type = .eof
      · rw [isEnd]
        exact Nat.zero_le _
      · split
        all_goals first
          | exact Nat.zero_le _
          | exact succ_le_findIdx isEnd inductionHypothesis

theorem recoverStatementCount_le (tokens : List Token) :
    recoverStatementCount tokens ≤ tokens.findIdx (·.type = .eof) := by
  induction tokens with
  | nil => exact Nat.zero_le _
  | cons token rest inductionHypothesis =>
      unfold recoverStatementCount
      by_cases isEnd : token.type = .eof
      · rw [isEnd]
        exact Nat.zero_le _
      · split
        all_goals first
          | exact Nat.zero_le _
          | exact succ_le_findIdx isEnd (Nat.zero_le _)
          | exact succ_le_findIdx isEnd inductionHypothesis

theorem recoverTopLevelCount_le (depth : Nat) (tokens : List Token) :
    recoverTopLevelCount depth tokens ≤ tokens.findIdx (·.type = .eof) := by
  induction tokens generalizing depth with
  | nil => exact Nat.zero_le _
  | cons token rest inductionHypothesis =>
      unfold recoverTopLevelCount
      by_cases isEnd : token.type = .eof
      · rw [isEnd]
        exact Nat.zero_le _
      · have passed (depth : Nat) : recoverTopLevelCount depth rest + 1 ≤
            (token :: rest).findIdx (·.type = .eof) :=
          succ_le_findIdx isEnd (inductionHypothesis depth)
        split
        all_goals first
          | exact Nat.zero_le _
          | exact passed _
          | split
            · first
                | exact Nat.zero_le _
                | exact succ_le_findIdx isEnd (Nat.zero_le _)
            · exact passed _

namespace Parser.Advances

variable {p : Parser}

theorem recoverExpression (stands : p.Stands) :
    p.Advances (p.skip (recoverExpressionCount (p.tokens.drop p.current))) :=
  .recover stands (recoverExpressionCount_le _)

theorem recoverStatement (stands : p.Stands) :
    p.Advances (p.skip (recoverStatementCount (p.tokens.drop p.current))) :=
  .recover stands (recoverStatementCount_le _)

theorem recoverTopLevel (stands : p.Stands) :
    p.Advances (p.advanced.skip
      (recoverTopLevelCount 0 (p.advanced.tokens.drop p.advanced.current))) := by
  have first := Parser.Advances.advanced stands
  exact first.trans (.recover first.stands (recoverTopLevelCount_le _ _))

end Parser.Advances

/-! ## Runs on any fuel -/

/-- Whatever the parse function returns from the state, the postcondition holds of it, and
it does return when there is enough fuel. -/
structure Completes {α : Type} (enough : Prop) (parse : ParseM α) (p : Parser)
    (post : α → Parser → Prop) : Prop where
  sound : ∀ result q, parse p = some (result, q) → post result q
  returns : enough → (parse p).isSome

namespace Completes

variable {α β : Type} {enough : Prop} {p : Parser} {post : β → Parser → Prop}

theorem pure {result : β} (holds : post result p) :
    Completes enough (Pure.pure result) p post := by
  constructor
  · rintro _ _ ⟨⟩
    exact holds
  · intro _
    rfl

/-- A part, and the rest behind it. -/
theorem andThen {parse : ParseM α} {next : α → ParseM β} {part : Prop}
    {between : α → Parser → Prop} (first : Completes part parse p between)
    (fits : enough → part)
    (second : ∀ result q, between result q → Completes enough (next result) q post) :
    Completes enough (parse >>= next) p post := by
  have unfolded : (parse >>= next) p = (parse p).bind fun read => next read.1 read.2 := rfl
  constructor
  · intro result r returned
    rw [unfolded, Option.bind_eq_some_iff] at returned
    rcases returned with ⟨⟨value, q⟩, firstReturned, secondReturned⟩
    exact (second value q (first.sound value q firstReturned)).sound result r secondReturned
  · intro isEnough
    rcases Option.isSome_iff_exists.mp (first.returns (fits isEnough)) with
      ⟨⟨value, q⟩, firstReturned⟩
    rw [unfolded, firstReturned]
    exact (second value q (first.sound value q firstReturned)).returns isEnough

theorem mono {parse : ParseM β} {part : Prop} {stronger : β → Parser → Prop}
    (run : Completes part parse p stronger) (fits : enough → part)
    (weaker : ∀ result q, stronger result q → post result q) :
    Completes enough parse p post := by
  constructor
  · intro result q returned
    exact weaker result q (run.sound result q returned)
  · exact fun isEnough => run.returns (fits isEnough)

theorem bind {parse : ParseM α} {next : α → ParseM β} {value : α} {q : Parser}
    (first : parse p = some (value, q)) (second : Completes enough (next value) q post) :
    Completes enough (parse >>= next) p post := by
  have unfolded : (parse >>= next) p = next value q := by
    change (parse p).bind _ = _
    rw [first]
    rfl
  constructor
  · intro result r returned
    rw [unfolded] at returned
    exact second.sound result r returned
  · intro isEnough
    rw [unfolded]
    exact second.returns isEnough

theorem peek {next : Token → ParseM β} (run : Completes enough (next p.peek) p post) :
    Completes enough (parserPeek >>= next) p post :=
  bind rfl run

theorem peekNext {next : Token → ParseM β} (run : Completes enough (next p.peekNext) p post) :
    Completes enough (parserPeekNext >>= next) p post :=
  bind rfl run

theorem get {next : Parser → ParseM β} (run : Completes enough (next p) p post) :
    Completes enough (MonadState.get >>= next) p post :=
  bind rfl run

theorem update {next : PUnit → ParseM β} {change : Parser → Parser}
    (run : Completes enough (next ⟨⟩) (change p) post) :
    Completes enough (modify change >>= next) p post :=
  bind rfl run

theorem advance {next : Token → ParseM β} (stands : p.Stands)
    (run : ∀ q, p.Advances q → (p.peek.type ≠ .eof → p.current < q.current) →
      Completes enough (next p.peek) q post) :
    Completes enough (parserAdvance >>= next) p post := by
  apply bind (q := p.advanced) rfl
  apply run _ (.advanced stands)
  intro notEnd
  rw [Parser.advanced, if_pos notEnd]
  exact Nat.lt_succ_self _

theorem match_ {type : TokenType} {next : Bool → ParseM β} (stands : p.Stands)
    (notEnd : type ≠ .eof)
    (matched : ∀ q, p.Advances q → p.current < q.current → Completes enough (next true) q post)
    (other : Completes enough (next false) p post) :
    Completes enough (parserMatch type >>= next) p post := by
  have unfolded : parserMatch type p =
      (if p.peek.type = type then do set (p.skip 1); return true else return false :
        ParseM Bool) p := rfl
  by_cases same : p.peek.type = type
  · rw [if_pos same] at unfolded
    rw [← same] at notEnd
    exact bind unfolded (matched _ (.skip stands notEnd) (Nat.lt_succ_self _))
  · rw [if_neg same] at unfolded
    exact bind unfolded other

theorem recoverExpression {next : PUnit → ParseM β} (stands : p.Stands)
    (run : ∀ q, p.Advances q → Completes enough (next ⟨⟩) q post) :
    Completes enough (parserRecoverExpression >>= next) p post :=
  update (run _ (.recoverExpression stands))

theorem recoverStatement {next : PUnit → ParseM β} (stands : p.Stands)
    (run : ∀ q, p.Advances q → Completes enough (next ⟨⟩) q post) :
    Completes enough (parserRecoverStatement >>= next) p post :=
  update (run _ (.recoverStatement stands))

theorem recoverTopLevel {next : PUnit → ParseM β} (stands : p.Stands)
    (run : ∀ q, p.Advances q → Completes enough (next ⟨⟩) q post) :
    Completes enough (parserRecoverTopLevel >>= next) p post :=
  update (run _ (.recoverTopLevel stands))

theorem reportUnexpected {next : PUnit → ParseM β} {got : Token} {expected hint : String}
    (stands : p.Stands) (run : ∀ q, p.Advances q → Completes enough (next ⟨⟩) q post) :
    Completes enough (parserReportUnexpected got expected hint >>= next) p post := by
  unfold parserReportUnexpected
  split
  · exact bind rfl (run p (.refl stands))
  · exact update (run _ (.report stands _))

theorem expect {type : TokenType} {next : Bool → ParseM β} (stands : p.Stands)
    (notEnd : type ≠ .eof)
    (found : ∀ q, p.Advances q → p.current < q.current → Completes enough (next true) q post)
    (missing : ∀ q, p.Advances q → Completes enough (next false) q post) :
    Completes enough (parserExpect type >>= next) p post := by
  have run : Completes enough (parserExpect type) p fun result q =>
      p.Advances q ∧ (result = true → p.current < q.current) := by
    unfold parserExpect
    apply match_ stands notEnd
    · intro q advances further
      exact pure ⟨advances, fun _ => further⟩
    · apply peek
      split
      · apply update
        exact pure ⟨.report stands _, nofun⟩
      · exact pure ⟨.refl stands, nofun⟩
  apply run.andThen id
  rintro result q ⟨advances, further⟩
  cases result with
  | true => exact found q advances (further rfl)
  | false => exact missing q advances

theorem expectIdentifier {expected hint : String} {next : Option Token → ParseM β}
    (stands : p.Stands)
    (found : ∀ token q, p.Advances q → p.current < q.current →
      Completes enough (next (some token)) q post)
    (missing : ∀ q, p.Advances q → Completes enough (next none) q post) :
    Completes enough (parserExpectIdentifier expected hint >>= next) p post := by
  have run : Completes enough (parserExpectIdentifier expected hint) p fun result q =>
      p.Advances q ∧ (result.isSome → p.current < q.current) := by
    unfold parserExpectIdentifier
    apply peek
    split
    · apply reportUnexpected stands
      intro q advances
      exact pure ⟨advances, nofun⟩
    · rename_i isName
      apply advance stands
      intro q advances further
      exact pure ⟨advances, fun _ => further (by simp [not_not.mp isName])⟩
  apply run.andThen id
  rintro result q ⟨advances, further⟩
  cases result with
  | some token => exact found token q advances (further rfl)
  | none => exact missing q advances

theorem expectType {expected hint : String} {next : Option ValueType → ParseM β}
    (stands : p.Stands)
    (found : ∀ type q, p.Advances q → p.current < q.current →
      Completes enough (next (some type)) q post)
    (missing : ∀ q, p.Advances q → Completes enough (next none) q post) :
    Completes enough (parserExpectType expected hint >>= next) p post := by
  have run : Completes enough (parserExpectType expected hint) p fun result q =>
      p.Advances q ∧ (result.isSome → p.current < q.current) := by
    unfold parserExpectType
    apply peek
    dsimp only
    split
    · apply reportUnexpected stands
      intro q advances
      exact pure ⟨advances, nofun⟩
    · rename_i isType
      apply advance stands
      intro q advances further
      refine pure ⟨advances, fun _ => further ?_⟩
      intro isEnd
      rw [isEnd] at isType
      exact isType rfl
  apply run.andThen id
  rintro result q ⟨advances, further⟩
  cases result with
  | some type => exact found type q advances (further rfl)
  | none => exact missing q advances

end Completes

/-- A parse function never goes back, and passes a token at least when it finds
something. -/
def Passes {α : Type} (p : Parser) (result : Option α) (q : Parser) : Prop :=
  p.Advances q ∧ (result.isSome → p.current < q.current)

namespace Passes

variable {α : Type} {p q r : Parser} {result : Option α}

theorem none (advances : p.Advances q) : Passes p (Option.none : Option α) q :=
  ⟨advances, nofun⟩

theorem some {value : α} (advances : p.Advances q) (further : p.current < q.current) :
    Passes p (Option.some value) q :=
  ⟨advances, fun _ => further⟩

theorem after (passes : Passes q result r) (advances : p.Advances q) : Passes p result r :=
  ⟨advances.trans passes.1, fun found => advances.forward.trans_lt (passes.2 found)⟩

/-- Behind a token that is passed, a function that may find nothing passes one as well. -/
theorem behind (moves : q.Advances r) (advances : p.Advances q) (further : p.current < q.current) :
    Passes p result r :=
  ⟨advances.trans moves, fun _ => further.trans_le moves.forward⟩

end Passes

/-- A part is looked for, and the rest goes on with it or is told that there is none. -/
theorem Completes.pass {α β : Type} {enough part : Prop} {parse : ParseM (Option α)}
    {next : Option α → ParseM β} {p : Parser} {post : β → Parser → Prop}
    (first : Completes part parse p (Passes p)) (fits : enough → part)
    (missing : ∀ q, p.Advances q → Completes enough (next none) q post)
    (found : ∀ value q, p.Advances q → p.current < q.current →
      Completes enough (next (some value)) q post) :
    Completes enough (parse >>= next) p post := by
  apply first.andThen fits
  rintro result q ⟨advances, further⟩
  cases result with
  | none => exact missing q advances
  | some value => exact found value q advances (further rfl)

/-- A parse function that has given up recovers. -/
theorem Completes.giveUpExpression {α : Type} {enough : Prop} {p q : Parser}
    (advances : p.Advances q) :
    Completes enough (do parserRecoverExpression; return (none : Option α)) q (Passes p) := by
  apply Completes.recoverExpression advances.stands
  intro r moves
  exact .pure (.none (advances.trans moves))

theorem Completes.giveUpStatement {α : Type} {enough : Prop} {p q : Parser}
    (advances : p.Advances q) :
    Completes enough (do parserRecoverStatement; return (none : Option α)) q (Passes p) := by
  apply Completes.recoverStatement advances.stands
  intro r moves
  exact .pure (.none (advances.trans moves))

theorem Completes.giveUp {α : Type} {enough : Prop} {p q : Parser} (advances : p.Advances q) :
    Completes enough (Pure.pure (none : Option α)) q (Passes p) :=
  .pure (.none advances)

/-! ## Expressions -/

theorem parsePostfixLoop_progress (fuel : Nat) {p : Parser} (stands : p.Stands) (operand : Expr) :
    Completes (p.left < fuel) (parsePostfixLoop fuel operand) p fun _ q => p.Advances q := by
  induction fuel generalizing p operand with
  | zero => exact ⟨nofun, nofun⟩
  | succ fuel inductionHypothesis =>
      unfold parsePostfixLoop
      apply Completes.peek
      split
      · rename_i isOperator
        have notEnd : p.peek.type ≠ .eof := by
          intro isEnd
          simp [isEnd] at isOperator
        apply Completes.advance stands
        intro q advances further
        have passed := further notEnd
        have balance := advances.balance
        split
        · exact .pure advances
        · apply (inductionHypothesis advances.stands _).mono
          · intro enough
            omega
          · intro _ r moves
            exact advances.trans moves
      · exact .pure (.refl stands)

theorem parseCastLoop_progress (fuel : Nat) {p : Parser} (stands : p.Stands) (operand : Expr) :
    Completes (p.left < fuel) (parseCastLoop fuel operand) p fun _ q => p.Advances q := by
  induction fuel generalizing p operand with
  | zero => exact ⟨nofun, nofun⟩
  | succ fuel inductionHypothesis =>
      unfold parseCastLoop
      apply Completes.peek
      split
      · rename_i isAs
        apply Completes.advance stands
        intro q advances further
        have passed := further (by simp [isAs])
        apply Completes.expectType advances.stands
        · intro target r moves _
          have reached := advances.trans moves
          have balance := reached.balance
          have forward := moves.forward
          apply (inductionHypothesis reached.stands _).mono
          · intro enough
            omega
          · intro _ t others
            exact reached.trans others
        · intro r moves
          apply Completes.recoverExpression moves.stands
          intro t others
          exact .pure (advances.trans (moves.trans others))
      · exact .pure (.refl stands)

/-- What the expression parsers do on a given fuel. -/
structure ExpressionProgress (fuel : Nat) : Prop where
  expression : ∀ p, p.Stands →
    Completes (16 * p.left + 15 ≤ fuel) (parseExpression fuel) p (Passes p)
  binary : ∀ p level, p.Stands →
    Completes (level ≤ castPrecedence ∧ 16 * p.left + binaryRank level ≤ fuel)
      (parseBinary fuel level) p (Passes p)
  binaryLoop : ∀ p level info left, p.Stands →
    Completes (kBinaryLevels[level]? = some info ∧ 16 * p.left + 1 ≤ fuel)
      (parseBinaryLoop fuel level info left) p fun _ q => p.Advances q
  cast : ∀ p, p.Stands → Completes (16 * p.left + 4 ≤ fuel) (parseCast fuel) p (Passes p)
  unary : ∀ p, p.Stands → Completes (16 * p.left + 3 ≤ fuel) (parseUnary fuel) p (Passes p)
  postfix_ : ∀ p, p.Stands → Completes (16 * p.left + 2 ≤ fuel) (parsePostfix fuel) p (Passes p)
  arguments : ∀ p, p.Stands →
    Completes (16 * p.left + 16 ≤ fuel) (parseArguments fuel) p (Passes p)
  call : ∀ p nameToken, p.Stands →
    Completes (p.peek.type ≠ .eof ∧ 16 * p.left + 1 ≤ fuel) (parseCall fuel nameToken) p (Passes p)
  primary : ∀ p, p.Stands → Completes (16 * p.left + 1 ≤ fuel) (parsePrimary fuel) p (Passes p)

section Expression

variable {fuel : Nat} (ih : ExpressionProgress fuel) {p : Parser} (stands : p.Stands)

include ih stands

theorem parseBinary_progress (level : Nat) :
    Completes (level ≤ castPrecedence ∧ 16 * p.left + binaryRank level ≤ fuel + 1)
      (parseBinary (fuel + 1) level) p (Passes p) := by
  unfold castPrecedence binaryRank parseBinary
  split
  · rename_i outside
    apply (ih.cast p stands).mono
    · rintro ⟨inTable, enough⟩
      have := List.getElem?_eq_none_iff.mp outside
      simp only [kBinaryLevels, List.length_cons, List.length_nil] at this
      omega
    · exact fun _ _ => id
  · rename_i info isLevel
    rcases List.getElem?_eq_some_iff.mp isLevel with ⟨inside, -⟩
    simp only [kBinaryLevels, List.length_cons, List.length_nil] at inside
    apply (ih.binary p (level + 1) stands).pass
    · rintro ⟨inTable, enough⟩
      unfold castPrecedence binaryRank
      omega
    · exact fun q => .giveUp
    · intro left q advances further
      have balance := advances.balance
      apply (ih.binaryLoop q level info left advances.stands).mono
      · rintro ⟨-, enough⟩
        exact ⟨isLevel, by omega⟩
      · intro _ r moves
        exact .behind moves advances further

theorem parseBinaryLoop_progress (level : Nat) (info : BinaryLevel) (left : Expr) :
    Completes (kBinaryLevels[level]? = some info ∧ 16 * p.left + 1 ≤ fuel + 1)
      (parseBinaryLoop (fuel + 1) level info left) p fun _ q => p.Advances q := by
  unfold parseBinaryLoop
  apply Completes.peek
  split
  · rename_i isOperator
    apply Completes.advance stands
    intro q advances further
    have balance := advances.balance
    have passed (isLevel : kBinaryLevels[level]? = some info) : p.current < q.current := by
      apply further
      rcases operator_of_level isLevel isOperator with ⟨op, -, isToken, -, -⟩
      rw [isToken]
      cases op <;> simp [BinaryOp.token]
    apply (ih.binary q (level + 1) advances.stands).pass
    · rintro ⟨isLevel, enough⟩
      rcases List.getElem?_eq_some_iff.mp isLevel with ⟨inside, -⟩
      simp only [kBinaryLevels, List.length_cons, List.length_nil] at inside
      have := passed isLevel
      unfold castPrecedence binaryRank
      omega
    · exact fun r moves => .pure (advances.trans moves)
    · intro right r moves _
      have reached := advances.trans moves
      have balance := reached.balance
      have forward := moves.forward
      dsimp only
      split
      · exact .pure reached
      · split
        · apply (ih.binaryLoop r level info _ reached.stands).mono
          · rintro ⟨isLevel, enough⟩
            have := passed isLevel
            exact ⟨isLevel, by omega⟩
          · intro _ t others
            exact reached.trans others
        · exact .pure reached
  · exact .pure (.refl stands)

theorem parseCast_progress :
    Completes (16 * p.left + 4 ≤ fuel + 1) (parseCast (fuel + 1)) p (Passes p) := by
  unfold parseCast
  apply (ih.unary p stands).pass
  · omega
  · exact fun q => .giveUp
  · intro operand q advances further
    have balance := advances.balance
    apply (parseCastLoop_progress fuel advances.stands operand).mono
    · omega
    · intro _ r moves
      exact .behind moves advances further

theorem parseUnary_progress :
    Completes (16 * p.left + 3 ≤ fuel + 1) (parseUnary (fuel + 1)) p (Passes p) := by
  unfold parseUnary
  apply Completes.peek
  split
  · apply (ih.postfix_ p stands).mono
    · omega
    · exact fun _ _ => id
  · rename_i op isOperator
    apply Completes.advance stands
    intro q advances further
    have balance := advances.balance
    have passed : p.current < q.current := by
      apply further
      intro isEnd
      simp [isEnd, TokenType.toUnaryOp] at isOperator
    apply (ih.unary q advances.stands).pass
    · omega
    · exact fun r moves => .giveUp (advances.trans moves)
    · intro operand r moves _
      exact .pure (.behind moves advances passed)

theorem parsePostfix_progress :
    Completes (16 * p.left + 2 ≤ fuel + 1) (parsePostfix (fuel + 1)) p (Passes p) := by
  unfold parsePostfix
  apply (ih.primary p stands).pass
  · omega
  · exact fun q => .giveUp
  · intro operand q advances further
    have balance := advances.balance
    apply (parsePostfixLoop_progress fuel advances.stands operand).mono
    · omega
    · intro _ r moves
      exact .behind moves advances further

theorem parseArguments_progress :
    Completes (16 * p.left + 16 ≤ fuel + 1) (parseArguments (fuel + 1)) p (Passes p) := by
  unfold parseArguments
  apply (ih.expression p stands).pass
  · omega
  · exact fun q => .giveUp
  · intro argument q advances further
    have balance := advances.balance
    apply Completes.match_ advances.stands (by decide)
    · intro r moves _
      have reached := advances.trans moves
      have balance := reached.balance
      have forward := moves.forward
      apply (ih.arguments r reached.stands).pass
      · omega
      · exact fun t others => .giveUp (reached.trans others)
      · intro arguments t others _
        exact .pure (.behind (moves.trans others) advances further)
    · exact .pure (.some advances further)

theorem parseCall_progress (nameToken : Token) :
    Completes (p.peek.type ≠ .eof ∧ 16 * p.left + 1 ≤ fuel + 1) (parseCall (fuel + 1) nameToken) p
      (Passes p) := by
  unfold parseCall
  apply Completes.advance stands
  intro q advances further
  have balance := advances.balance
  apply Completes.peek
  have arguments : Completes (16 * q.left + 16 ≤ fuel)
      (if q.peek.type ≠ .rparen then parseArguments fuel else pure (some [])) q
      fun _ r => q.Advances r := by
    split
    · exact (ih.arguments q advances.stands).mono id fun _ _ => And.left
    · exact .pure (.refl advances.stands)
  apply arguments.andThen
  · rintro ⟨notEnd, enough⟩
    have := further notEnd
    omega
  · intro arguments r moves
    have reached := advances.trans moves
    split
    · exact .giveUp reached
    · apply Completes.expect reached.stands (by decide)
      · intro t others passed
        exact .pure (.some (reached.trans others) (reached.forward.trans_lt passed))
      · intro t others
        exact .giveUpExpression (reached.trans others)

theorem parsePrimary_progress :
    Completes (16 * p.left + 1 ≤ fuel + 1) (parsePrimary (fuel + 1)) p (Passes p) := by
  unfold parsePrimary
  apply Completes.match_ stands (by decide)
  · intro q advances further
    have balance := advances.balance
    apply (ih.expression q advances.stands).pass
    · omega
    · exact fun r moves => .giveUp (advances.trans moves)
    · intro expr r moves _
      have reached := advances.trans moves
      apply Completes.expect reached.stands (by decide)
      · intro t others _
        exact .pure (.behind (moves.trans others) advances further)
      · intro t others
        exact .giveUpExpression (reached.trans others)
  · apply Completes.peek
    split
    · rename_i literalType isLiteral
      apply Completes.advance stands
      intro q advances further
      apply Completes.pure
      apply Passes.some advances
      apply further
      intro isEnd
      simp [isEnd, TokenType.toLiteralType] at isLiteral
    · split
      · rename_i isName
        apply Completes.advance stands
        intro q advances further
        have passed := further (by simp [isName])
        have balance := advances.balance
        apply Completes.peek
        split
        · rename_i isOpening
          apply (ih.call q _ advances.stands).mono
          · intro enough
            exact ⟨by simp [isOpening], by omega⟩
          · intro _ r passes
            exact passes.after advances
        · exact .pure (.some advances passed)
      · apply Completes.reportUnexpected stands
        exact fun q advances => .giveUpExpression advances

end Expression

theorem expressionProgress (fuel : Nat) : ExpressionProgress fuel := by
  induction fuel with
  | zero =>
      constructor
      case binary =>
        intro p level _
        refine ⟨nofun, ?_⟩
        rintro ⟨inTable, enough⟩
        unfold binaryRank castPrecedence at *
        omega
      all_goals
        intros
        refine ⟨nofun, fun enough => ?_⟩
        omega
  | succ fuel ih =>
      constructor
      case expression =>
        intro p stands
        apply (ih.binary p 0 stands).mono
        · intro enough
          unfold castPrecedence binaryRank
          omega
        · exact fun _ _ => id
      case binary => exact fun p level stands => parseBinary_progress ih stands level
      case binaryLoop =>
        exact fun p level info left stands => parseBinaryLoop_progress ih stands level info left
      case cast => exact fun p stands => parseCast_progress ih stands
      case unary => exact fun p stands => parseUnary_progress ih stands
      case postfix_ => exact fun p stands => parsePostfix_progress ih stands
      case arguments => exact fun p stands => parseArguments_progress ih stands
      case call => exact fun p nameToken stands => parseCall_progress ih stands nameToken
      case primary => exact fun p stands => parsePrimary_progress ih stands

/-! ## Declarations -/

section Declaration

variable {p : Parser} (stands : p.Stands) (fuel : Nat)

include stands

theorem parseQualifiersLoop_progress (quals : Qualifiers) :
    Completes (p.left < fuel) (parseQualifiersLoop fuel quals) p fun _ q => p.Advances q := by
  induction fuel generalizing p quals with
  | zero => exact ⟨nofun, nofun⟩
  | succ fuel inductionHypothesis =>
      have step (repeated : Bool) (token : Token) (quals : Qualifiers)
          (notEnd : p.peek.type ≠ .eof) :
          Completes (p.left < fuel + 1)
            (do
              if repeated then
                reportRepeatedQual token
              let _ ← parserAdvance
              parseQualifiersLoop fuel quals)
            p fun _ q => p.Advances q := by
        have advance {q : Parser} (advances : p.Advances q) (samePeek : q.peek = p.peek) :
            Completes (p.left < fuel + 1)
              (do let _ ← parserAdvance; parseQualifiersLoop fuel quals) q
              fun _ q => p.Advances q := by
          apply Completes.advance advances.stands
          intro r moves further
          rw [samePeek] at further
          have passed := further notEnd
          have reached := advances.trans moves
          have balance := reached.balance
          have forward := advances.forward
          apply (inductionHypothesis reached.stands quals).mono
          · omega
          · exact fun _ t others => reached.trans others
        cases repeated with
        | false => exact advance (.refl stands) rfl
        | true => exact Completes.update (advance (.report stands _) rfl)
      unfold parseQualifiersLoop
      apply Completes.peek
      split
      · rename_i isMut
        exact step _ _ _ (by simp [isMut])
      · rename_i isPub
        exact step _ _ _ (by simp [isPub])
      · rename_i isExtern
        exact step _ _ _ (by simp [isExtern])
      · exact .pure (.refl stands)

theorem parseQualifiers_progress :
    Completes (p.left < fuel) (parseQualifiers fuel) p fun _ q => p.Advances q :=
  parseQualifiersLoop_progress stands fuel {}

theorem parseExprStmt_progress :
    Completes (16 * p.left + 15 ≤ fuel) (parseExprStmt fuel) p (Passes p) := by
  unfold parseExprStmt
  apply ((expressionProgress fuel).expression p stands).pass id
  · exact fun q => .giveUpStatement
  · intro expr q advances further
    apply Completes.expect advances.stands (by decide)
    · intro r moves _
      exact .pure (.behind moves advances further)
    · exact fun r moves => .giveUpStatement (advances.trans moves)

theorem parseInitialiser_progress :
    Completes (16 * p.left + 1 ≤ fuel) (parseInitialiser fuel) p fun _ q => p.Advances q := by
  unfold parseInitialiser
  apply Completes.match_ stands (by decide)
  · intro q advances further
    have balance := advances.balance
    apply ((expressionProgress fuel).expression q advances.stands).pass
    · omega
    · exact fun r moves => .pure (advances.trans moves)
    · exact fun value r moves _ => .pure (advances.trans moves)
  · exact .pure (.refl stands)

theorem parseVarDecl_progress (qualifiers : Qualifiers) :
    Completes (16 * p.left + 1 ≤ fuel) (parseVarDecl fuel qualifiers) p (Passes p) := by
  unfold parseVarDecl
  apply Completes.expectType stands
  · intro type q first passed
    apply Completes.expectIdentifier first.stands
    · intro nameToken r second _
      have reached := first.trans second
      have balance := reached.balance
      have forward := second.forward
      apply (parseInitialiser_progress reached.stands fuel).andThen
      · omega
      · intro value t third
        have reached := reached.trans third
        split
        · exact .giveUpStatement reached
        · apply Completes.expect reached.stands (by decide)
          · intro u fourth _
            exact .pure (.behind (second.trans (third.trans fourth)) first passed)
          · exact fun u fourth => .giveUpStatement (reached.trans fourth)
    · exact fun r second => .giveUpStatement (first.trans second)
  · exact fun q => .giveUpStatement

theorem parseVarAssign_progress :
    Completes (p.peek.type ≠ .eof ∧ 16 * p.left + 1 ≤ fuel) (parseVarAssign fuel) p (Passes p) := by
  unfold parseVarAssign
  apply Completes.advance stands
  intro q first further
  apply Completes.advance first.stands
  intro r second _
  have reached := first.trans second
  have balance := reached.balance
  have forward := second.forward
  apply ((expressionProgress fuel).expression r reached.stands).pass
  · rintro ⟨notEnd, enough⟩
    have := further notEnd
    omega
  · exact fun t third => .giveUpStatement (reached.trans third)
  · intro rhs t third _
    have reached := reached.trans third
    dsimp only
    split
    · exact .giveUp reached
    · apply Completes.expect reached.stands (by decide)
      · intro u fourth passed
        exact .pure (.some (reached.trans fourth) (reached.forward.trans_lt passed))
      · exact fun u fourth => .giveUpStatement (reached.trans fourth)

theorem parseReturnValue_progress :
    Completes (16 * p.left + 15 ≤ fuel) (parseReturnValue fuel) p fun _ q => p.Advances q := by
  unfold parseReturnValue
  apply Completes.peek
  split
  · apply ((expressionProgress fuel).expression p stands).pass id
    · exact fun q advances => .pure advances
    · exact fun value q advances _ => .pure advances
  · exact .pure (.refl stands)

theorem parseReturn_progress :
    Completes (p.peek.type ≠ .eof ∧ 16 * p.left + 1 ≤ fuel) (parseReturn fuel) p (Passes p) := by
  unfold parseReturn
  apply Completes.advance stands
  intro q first further
  have balance := first.balance
  apply (parseReturnValue_progress first.stands fuel).andThen
  · rintro ⟨notEnd, enough⟩
    have := further notEnd
    omega
  · intro value r second
    have reached := first.trans second
    split
    · exact .giveUpStatement reached
    · apply Completes.expect reached.stands (by decide)
      · intro t third passed
        exact .pure (.some (reached.trans third) (reached.forward.trans_lt passed))
      · exact fun t third => .giveUpStatement (reached.trans third)

theorem parseParameters_progress :
    Completes (p.left + 1 < fuel) (parseParameters fuel) p fun _ q => p.Advances q := by
  induction fuel generalizing p with
  | zero => exact ⟨nofun, nofun⟩
  | succ fuel inductionHypothesis =>
      unfold parseParameters
      apply (parseQualifiers_progress stands fuel).andThen
      · omega
      · intro qualifiers q first
        apply Completes.expectType first.stands
        · intro type r second passed
          have reached := first.trans second
          apply Completes.expectIdentifier reached.stands
          · intro nameToken t third _
            have named := reached.trans third
            apply Completes.match_ named.stands (by decide)
            · intro u fourth _
              have continued := named.trans fourth
              have balance := continued.balance
              have forward := first.forward
              have later := (third.trans fourth).forward
              apply (inductionHypothesis continued.stands).andThen
              · omega
              · intro parameters v fifth
                split
                · exact .pure (continued.trans fifth)
                · exact .pure (continued.trans fifth)
            · exact .pure named
          · exact fun t third => .pure (reached.trans third)
        · exact fun r second => .pure (first.trans second)

theorem parseReturnType_progress (enough : Prop) :
    Completes enough parseReturnType p fun _ q => p.Advances q := by
  unfold parseReturnType
  apply Completes.peek
  split
  · apply Completes.advance stands
    exact fun q advances _ => .pure advances
  · split
    · exact .pure (.refl stands)
    · apply Completes.reportUnexpected stands
      exact fun q advances => .pure advances

theorem parseFuncHeader_progress (qualifiers : Qualifiers) :
    Completes (p.left ≤ fuel) (parseFuncHeader fuel qualifiers) p (Passes p) := by
  unfold parseFuncHeader
  apply Completes.advance stands
  intro q first _
  apply Completes.expectIdentifier first.stands
  · intro nameToken r second passed
    have named := first.trans second
    apply Completes.expect named.stands (by decide)
    · intro t third opening
      have opened := named.trans third
      have balance := opened.balance
      have start := first.forward
      apply Completes.peek
      have parameters : Completes (t.left + 1 < fuel)
          (if t.peek.type ≠ .rparen then parseParameters fuel else pure (some [])) t
          fun _ u => t.Advances u := by
        split
        · exact parseParameters_progress opened.stands fuel
        · exact .pure (.refl opened.stands)
      apply parameters.andThen
      · omega
      · intro parameters u fourth
        have read := opened.trans fourth
        split
        · exact .giveUp read
        · apply Completes.expect read.stands (by decide)
          · intro v fifth _
            have closed := read.trans fifth
            apply (parseReturnType_progress closed.stands _).andThen id
            intro returnType w sixth
            split
            · exact .giveUp (closed.trans sixth)
            · apply Completes.pure
              apply Passes.some (closed.trans sixth)
              have later := (third.trans (fourth.trans (fifth.trans sixth))).forward
              omega
          · exact fun v fifth => .giveUp (read.trans fifth)
    · exact fun t third => .giveUp (named.trans third)
  · exact fun r second => .giveUp (first.trans second)

end Declaration

/-! ## Statements -/

/-- What the statement parsers do on a given fuel. -/
structure StatementProgress (fuel : Nat) : Prop where
  statement : ∀ p, p.Stands →
    Completes (16 * p.left + 16 ≤ fuel) (parseStatement fuel) p (Passes p)
  decl : ∀ p, p.Stands → Completes (16 * p.left + 3 ≤ fuel) (parseDecl fuel) p (Passes p)
  funcDecl : ∀ p qualifiers, p.Stands →
    Completes (16 * p.left + 2 ≤ fuel) (parseFuncDecl fuel qualifiers) p (Passes p)
  ifStmt : ∀ p, p.Stands →
    Completes (p.peek.type ≠ .eof ∧ 16 * p.left + 1 ≤ fuel) (parseIf fuel) p (Passes p)
  whileStmt : ∀ p, p.Stands →
    Completes (p.peek.type ≠ .eof ∧ 16 * p.left + 1 ≤ fuel) (parseWhile fuel) p (Passes p)
  block : ∀ p, p.Stands → Completes (16 * p.left + 2 ≤ fuel) (parseBlock fuel) p (Passes p)
  blockLoop : ∀ p, p.Stands →
    Completes (16 * p.left + 17 ≤ fuel) (parseBlockLoop fuel) p fun _ q => p.Advances q

/-- The loops over statements pass a token at least before they go on behind one that
was given up. -/
theorem Completes.resume {β : Type} {enough : Prop} {next : ParseM β} {p q : Parser}
    {post : β → Parser → Prop} (moves : p.Advances q) (notEnd : p.peek.type ≠ .eof)
    (run : ∀ r, q.Advances r → p.current < r.current → Completes enough next r post) :
    Completes enough
      (do
        if (← MonadState.get).current = p.current then
          let _ ← parserAdvance
        next)
      q post := by
  apply Completes.get
  dsimp only
  split
  · rename_i same
    have peek : q.peek = p.peek := by
      unfold Parser.peek Parser.peekAt
      rw [same, moves.tokens]
    apply Completes.advance moves.stands
    intro r advances further
    rw [peek] at further
    apply run r advances
    rw [← same]
    exact further notEnd
  · rename_i moved
    exact run q (.refl moves.stands) (lt_of_le_of_ne moves.forward (Ne.symm moved))

section Statement

variable {fuel : Nat} (ih : StatementProgress fuel) {p : Parser} (stands : p.Stands)

include ih stands

theorem parseStatement_progress :
    Completes (16 * p.left + 16 ≤ fuel + 1) (parseStatement (fuel + 1)) p (Passes p) := by
  unfold parseStatement
  apply Completes.peek
  apply Completes.peekNext
  split
  · exact (ih.decl p stands).mono (by omega) fun _ _ => id
  · split
    · rename_i assigns
      apply (parseVarAssign_progress stands fuel).mono
      · rw [Bool.and_eq_true] at assigns
        intro enough
        refine ⟨?_, by omega⟩
        rw [show p.peek.type = .identifier by simpa [TokenType.isIdent] using assigns.1]
        exact TokenType.noConfusion
      · exact fun _ _ => id
    · split
      · exact (ih.block p stands).mono (by omega) fun _ _ => id
      · split
        · rename_i isIf
          apply (ih.ifStmt p stands).mono
          · intro enough
            refine ⟨?_, by omega⟩
            rw [show p.peek.type = .kwIf by simpa [TokenType.isIf] using isIf]
            exact TokenType.noConfusion
          · exact fun _ _ => id
        · split
          · rename_i isWhile
            apply (ih.whileStmt p stands).mono
            · intro enough
              refine ⟨?_, by omega⟩
              rw [show p.peek.type = .kwWhile by simpa [TokenType.isWhile] using isWhile]
              exact TokenType.noConfusion
            · exact fun _ _ => id
          · split
            · rename_i isReturn
              apply (parseReturn_progress stands fuel).mono
              · intro enough
                refine ⟨?_, by omega⟩
                rw [show p.peek.type = .kwReturn by simpa [TokenType.isReturn] using isReturn]
                exact TokenType.noConfusion
              · exact fun _ _ => id
            · exact (parseExprStmt_progress stands fuel).mono (by omega) fun _ _ => id

theorem parseDecl_progress :
    Completes (16 * p.left + 3 ≤ fuel + 1) (parseDecl (fuel + 1)) p (Passes p) := by
  unfold parseDecl
  apply (parseQualifiers_progress stands fuel).andThen
  · omega
  · intro quals q advances
    have balance := advances.balance
    have forward := advances.forward
    apply Completes.peek
    split
    · apply (ih.funcDecl q quals advances.stands).mono
      · omega
      · exact fun _ r passes => passes.after advances
    · split
      · apply (parseVarDecl_progress advances.stands fuel quals).mono
        · omega
        · exact fun _ r passes => passes.after advances
      · apply Completes.reportUnexpected advances.stands
        exact fun r moves => .giveUpStatement (advances.trans moves)

theorem parseFuncDecl_progress (qualifiers : Qualifiers) :
    Completes (16 * p.left + 2 ≤ fuel + 1) (parseFuncDecl (fuel + 1) qualifiers) p (Passes p) := by
  unfold parseFuncDecl
  apply (parseFuncHeader_progress stands fuel qualifiers).pass
  · omega
  · exact fun q => .giveUpStatement
  · intro func q advances further
    have balance := advances.balance
    apply Completes.peek
    split
    · apply (ih.block q advances.stands).pass
      · omega
      · exact fun r moves => .giveUpStatement (advances.trans moves)
      · exact fun body r moves _ => .pure (.behind moves advances further)
    · split
      · apply Completes.advance advances.stands
        exact fun r moves _ => .pure (.behind moves advances further)
      · apply Completes.reportUnexpected advances.stands
        exact fun r moves => .giveUpStatement (advances.trans moves)

theorem parseIf_progress :
    Completes (p.peek.type ≠ .eof ∧ 16 * p.left + 1 ≤ fuel + 1) (parseIf (fuel + 1)) p
      (Passes p) := by
  unfold parseIf
  apply Completes.advance stands
  intro q first further
  have balance := first.balance
  apply ((expressionProgress fuel).expression q first.stands).pass
  · rintro ⟨notEnd, enough⟩
    have := further notEnd
    omega
  · exact fun r second => .giveUpStatement (first.trans second)
  · intro condition r second passed
    have tested := first.trans second
    have testedBalance := tested.balance
    have before := first.forward
    apply (ih.block r tested.stands).pass
    · rintro ⟨notEnd, enough⟩
      omega
    · exact fun t third => .giveUpStatement (tested.trans third)
    · intro branchThen t third _
      have chosen := tested.trans third
      apply Completes.match_ chosen.stands (by decide)
      · intro u fourth _
        have reached := chosen.trans fourth
        have reachedBalance := reached.balance
        have later := (third.trans fourth).forward
        apply Completes.peek
        have branch : Completes (16 * u.left + 2 ≤ fuel)
            (if u.peek.type = .kwIf then parseIf fuel else parseBlock fuel) u (Passes u) := by
          split
          · rename_i isIf
            apply (ih.ifStmt u reached.stands).mono
            · intro enough
              exact ⟨by simp [isIf], by omega⟩
            · exact fun _ _ => id
          · exact ih.block u reached.stands
        apply branch.pass
        · rintro ⟨notEnd, enough⟩
          omega
        · exact fun v fifth => .giveUpStatement (reached.trans fifth)
        · intro branchElse v fifth _
          have last := fifth.forward
          exact .pure (.some (reached.trans fifth) (by omega))
      · have last := third.forward
        exact .pure (.some chosen (by omega))

theorem parseWhile_progress :
    Completes (p.peek.type ≠ .eof ∧ 16 * p.left + 1 ≤ fuel + 1) (parseWhile (fuel + 1)) p
      (Passes p) := by
  unfold parseWhile
  apply Completes.advance stands
  intro q first further
  have balance := first.balance
  apply ((expressionProgress fuel).expression q first.stands).pass
  · rintro ⟨notEnd, enough⟩
    have := further notEnd
    omega
  · exact fun r second => .giveUpStatement (first.trans second)
  · intro condition r second passed
    have tested := first.trans second
    have testedBalance := tested.balance
    have before := first.forward
    apply (ih.block r tested.stands).pass
    · rintro ⟨notEnd, enough⟩
      omega
    · exact fun t third => .giveUpStatement (tested.trans third)
    · intro branchDo t third _
      have last := third.forward
      exact .pure (.some (tested.trans third) (by omega))

theorem parseBlock_progress :
    Completes (16 * p.left + 2 ≤ fuel + 1) (parseBlock (fuel + 1)) p (Passes p) := by
  unfold parseBlock
  apply Completes.peek
  apply Completes.expect stands (by decide)
  · intro q first further
    have balance := first.balance
    apply (ih.blockLoop q first.stands).andThen
    · omega
    · intro statements r second
      have reached := first.trans second
      apply Completes.expect reached.stands (by decide)
      · exact fun t third _ => .pure (.behind (second.trans third) first further)
      · exact fun t third => .giveUpStatement (reached.trans third)
  · exact fun q => .giveUpStatement

theorem parseBlockLoop_progress :
    Completes (16 * p.left + 17 ≤ fuel + 1) (parseBlockLoop (fuel + 1)) p
      fun _ q => p.Advances q := by
  unfold parseBlockLoop
  apply Completes.peek
  split
  · rename_i more
    have notEnd : p.peek.type ≠ .eof := by
      rw [Bool.and_eq_true] at more
      simpa using more.2
    apply Completes.get
    apply (ih.statement p stands).pass
    · omega
    · intro q first
      apply Completes.resume first notEnd
      intro r second further
      have reached := first.trans second
      have balance := reached.balance
      apply (ih.blockLoop r reached.stands).mono
      · omega
      · exact fun _ t third => reached.trans third
    · intro stmt q first further
      have balance := first.balance
      apply (ih.blockLoop q first.stands).andThen
      · omega
      · exact fun statements r second => .pure (first.trans second)
  · exact .pure (.refl stands)

end Statement

theorem statementProgress (fuel : Nat) : StatementProgress fuel := by
  induction fuel with
  | zero =>
      constructor
      all_goals
        intros
        refine ⟨nofun, fun enough => ?_⟩
        omega
  | succ fuel ih =>
      constructor
      case statement => exact fun p stands => parseStatement_progress ih stands
      case decl => exact fun p stands => parseDecl_progress ih stands
      case funcDecl => exact fun p qualifiers stands => parseFuncDecl_progress ih stands qualifiers
      case ifStmt => exact fun p stands => parseIf_progress ih stands
      case whileStmt => exact fun p stands => parseWhile_progress ih stands
      case block => exact fun p stands => parseBlock_progress ih stands
      case blockLoop => exact fun p stands => parseBlockLoop_progress ih stands

/-! ## Programs -/

section Program

variable {p : Parser} (stands : p.Stands) (fuel : Nat)

include stands

theorem parseImportLoop_progress (path : String) (expectIdentifier : Bool) :
    Completes (p.left < fuel) (parseImportLoop fuel path expectIdentifier) p
      fun _ q => p.Advances q := by
  induction fuel generalizing p path expectIdentifier with
  | zero => exact ⟨nofun, nofun⟩
  | succ fuel inductionHypothesis =>
      have continued {q : Parser} (advances : p.Advances q) (further : p.current < q.current)
          (path : String) (expectIdentifier : Bool) :
          Completes (p.left < fuel + 1) (parseImportLoop fuel path expectIdentifier) q
            fun _ r => p.Advances r := by
        have balance := advances.balance
        apply (inductionHypothesis advances.stands path expectIdentifier).mono
        · omega
        · exact fun _ r moves => advances.trans moves
      have refused (got : Token) (expected hint : String) : Completes (p.left < fuel + 1)
          (do parserReportUnexpected got expected hint; return (none : Option String)) p
          fun _ r => p.Advances r := by
        apply Completes.reportUnexpected stands
        exact fun q advances => .pure advances
      unfold parseImportLoop
      apply Completes.peek
      split
      · split
        · exact refused _ _ _
        · apply Completes.advance stands
          exact fun q advances _ => .pure advances
      · split
        · split
          · exact refused _ _ _
          · rename_i isName
            apply Completes.advance stands
            intro q advances further
            split
            · exact .pure advances
            · exact continued advances (further (by simp [not_not.mp isName])) _ _
        · split
          · exact refused _ _ _
          · rename_i isDot
            apply Completes.advance stands
            intro q advances further
            split
            · exact .pure advances
            · exact continued advances (further (by simp [not_not.mp isDot])) _ _

theorem parseImport_progress :
    Completes (p.left ≤ fuel) (parseImport fuel) p (Passes p) := by
  unfold parseImport
  apply Completes.peek
  apply Completes.expect stands (by decide)
  · intro q first further
    have balance := first.balance
    apply (parseImportLoop_progress first.stands fuel "" true).andThen
    · omega
    · intro path r second
      split
      · exact .giveUp (first.trans second)
      · split
        · exact .giveUp (first.trans second)
        · exact .pure (.behind second first further)
  · exact fun q => .giveUp

theorem parseTopLevel_progress :
    Completes (16 * p.left + 3 ≤ fuel) (parseTopLevel fuel) p (Passes p) := by
  have recover {q : Parser} (advances : p.Advances q) : Completes (16 * p.left + 3 ≤ fuel)
      (do parserRecoverTopLevel; return (none : Option TopLevel)) q (Passes p) := by
    apply Completes.recoverTopLevel advances.stands
    exact fun r moves => .giveUp (advances.trans moves)
  unfold parseTopLevel
  apply Completes.peek
  split
  · apply ((statementProgress fuel).decl p stands).pass id
    · exact fun q advances => recover advances
    · exact fun stmt q advances further => .pure (.some advances further)
  · split
    · apply (parseImport_progress stands fuel).pass
      · omega
      · exact fun q advances => recover advances
      · exact fun node q advances further => .pure (.some advances further)
    · apply Completes.update
      exact recover (.report stands _)

theorem parseLoop_progress (program : Program) :
    Completes (16 * p.left + 4 ≤ fuel) (parseLoop fuel program) p fun _ q => p.Advances q := by
  induction fuel generalizing p program with
  | zero =>
      refine ⟨nofun, fun enough => ?_⟩
      omega
  | succ fuel inductionHypothesis =>
      unfold parseLoop
      apply Completes.peek
      split
      · rename_i notEnd
        apply Completes.get
        apply (parseTopLevel_progress stands fuel).pass
        · omega
        · intro q first
          apply Completes.resume first notEnd
          intro r second further
          have reached := first.trans second
          have balance := reached.balance
          apply (inductionHypothesis reached.stands program).mono
          · omega
          · exact fun _ t third => reached.trans third
        · intro node q first further
          have balance := first.balance
          apply (inductionHypothesis first.stands _).mono
          · omega
          · exact fun _ r second => first.trans second
      · exact .pure (.refl stands)

end Program

end Sulfur
