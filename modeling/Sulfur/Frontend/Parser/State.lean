import Sulfur.Frontend.Lexer
import Sulfur.Frontend.Ast

/-!
# The parser state

`sf_parser` with its token cursor and the primitives of `parser.c`.  The
recursive descent is written in a state monad over `Option`: a `none` of the
monad means that the fuel of a recursion ran out, while a parse function that
answers `NULL` in the source returns `none` as its value.
-/

namespace Sulfur

/-- `sf_parser`, with the diagnostics logged so far. -/
structure Parser where
  tokens : List Token
  current : Nat := 0
  filename : String
  log : Log := []
  deriving DecidableEq, Repr

/-- A parsing function.  It reads and moves the parser; `none` is a lack of fuel. -/
abbrev ParseM := StateT Parser Option

namespace Parser

/-- `peek_at`: an index past the end reads the last token. -/
def peekAt (p : Parser) (idx : Nat) : Token :=
  p.tokens.getD idx (p.tokens.getLastD default)

/-- The token under the cursor. -/
def peek (p : Parser) : Token :=
  p.peekAt p.current

/-- The token after it. -/
def peekNext (p : Parser) : Token :=
  p.peekAt (p.current + 1)

/-- Move the cursor, whatever token it stands on. -/
def skip (p : Parser) (count : Nat) : Parser :=
  { p with current := p.current + count }

/-- The cursor after `sf_parser_advance`, which stays on the end of file. -/
def advanced (p : Parser) : Parser :=
  if p.peek.type ≠ .eof then p.skip 1 else p

/-- Log a diagnostic. -/
def report (p : Parser) (diagnostic : Diagnostic) : Parser :=
  { p with log := p.log ++ [diagnostic] }

end Parser

/-- `describe_token`. -/
def describeToken (token : Token) : String :=
  if token.type = .eof then "end of file" else s!"'{token.value}'"

/-- `sf_parser_peek`. -/
def parserPeek : ParseM Token := do
  return (← get).peek

/-- `sf_parser_peek_next`. -/
def parserPeekNext : ParseM Token := do
  return (← get).peekNext

/-- `sf_parser_advance`. -/
def parserAdvance : ParseM Token := do
  let p ← get
  set p.advanced
  return p.peek

/-- `sf_parser_match`. -/
def parserMatch (type : TokenType) : ParseM Bool := do
  let p ← get
  if p.peek.type = type then
    set (p.skip 1)
    return true
  else
    return false

/-- `sf_parser_report_unexpected`; an undefined token has been reported by the
lexer already. -/
def parserReportUnexpected (got : Token) (expected hint : String) :
    ParseM Unit := do
  if got.type = .undefined then
    return
  else
    modify fun p => p.report
      { title := "unexpected token"
        desc := "expected %s but found %s"
        hint := some hint
        file := p.filename
        code := .parserUnexpectedToken
        span := got.span
        severity := .error
        arguments := [expected, describeToken got] }

/-- `sf_parser_expect`. -/
def parserExpect (type : TokenType) : ParseM Bool := do
  if ← parserMatch type then
    return true
  else
    let got ← parserPeek
    if got.type ≠ .undefined then
      modify fun p => p.report
        { title := "unexpected token"
          desc := "expected '%s' but found %s"
          hint := some "check for a missing or misplaced token nearby"
          file := p.filename
          code := .parserUnexpectedToken
          span := got.span
          severity := .error
          arguments := [type.name, describeToken got] }
    return false

/-- `sf_parser_expect_identifier`. -/
def parserExpectIdentifier (expected hint : String) : ParseM (Option Token) := do
  let token ← parserPeek
  if token.type ≠ .identifier then
    parserReportUnexpected token expected hint
    return none
  else
    return some (← parserAdvance)

/-- `sf_parser_expect_type`. -/
def parserExpectType (expected hint : String) : ParseM (Option ValueType) := do
  let token ← parserPeek
  let value := token.type.toType
  if value = .unresolved then
    parserReportUnexpected token expected hint
    return none
  else
    let _ ← parserAdvance
    return some value

/-! ## Error recovery

Each recovery loop is a recursion over the tokens from the cursor on that
counts the tokens it skips. -/

/-- The number of tokens that `sf_parser_recover_expression` skips. -/
def recoverExpressionCount : List Token → Nat
  | [] => 0
  | token :: rest =>
      match token.type with
      | .eof | .semicolon | .rparen | .lbrace | .rbrace | .kwAs => 0
      | _ => recoverExpressionCount rest + 1

/-- The number of tokens that `sf_parser_recover_statement` skips. -/
def recoverStatementCount : List Token → Nat
  | [] => 0
  | token :: rest =>
      match token.type with
      | .eof => 0
      | .semicolon => 1
      | .kwI8 | .kwI16 | .kwI32 | .kwI64 | .kwU8 | .kwU16 | .kwU32 | .kwU64
      | .kwBool | .kwIf | .kwWhile | .kwFn | .kwReturn | .identifier
      | .lbrace | .rbrace => 0
      | _ => recoverStatementCount rest + 1

/-- The loop of `sf_parser_recover_top_level`, at a depth of open braces. -/
def recoverTopLevelCount : Nat → List Token → Nat
  | _, [] => 0
  | depth, token :: rest =>
      match token.type with
      | .eof => 0
      | .lbrace => recoverTopLevelCount (depth + 1) rest + 1
      | .rbrace => recoverTopLevelCount (depth - 1) rest + 1
      | .semicolon =>
          if depth = 0 then 1 else recoverTopLevelCount depth rest + 1
      | .kwFn | .kwI8 | .kwI16 | .kwI32 | .kwI64 | .kwU8 | .kwU16 | .kwU32
      | .kwU64 | .kwBool =>
          if depth = 0 then 0 else recoverTopLevelCount depth rest + 1
      | _ => recoverTopLevelCount depth rest + 1

/-- `sf_parser_recover_expression`. -/
def parserRecoverExpression : ParseM Unit :=
  modify fun p => p.skip (recoverExpressionCount (p.tokens.drop p.current))

/-- `sf_parser_recover_statement`. -/
def parserRecoverStatement : ParseM Unit :=
  modify fun p => p.skip (recoverStatementCount (p.tokens.drop p.current))

/-- `sf_parser_recover_top_level`. -/
def parserRecoverTopLevel : ParseM Unit :=
  modify fun p =>
    let p := p.advanced
    p.skip (recoverTopLevelCount 0 (p.tokens.drop p.current))

end Sulfur
