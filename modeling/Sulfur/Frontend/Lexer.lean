import Sulfur.Frontend.Token

/-!
# The lexer

`sf_tokenize` over the characters of the preprocessed text.  One `Char` stands
for one byte of the input, and the input ends at the end of the list or at a
NUL, whichever comes first.  The lexer state keeps the unread input instead of
an index into it; a lexeme that turns out to be undefined is read again from
the state before it.  The counters of lines and columns have 32 bits.
-/

namespace Sulfur

/-- The spellings that `find_symbol` tries, in the order of `k_symbols`. -/
def kSymbols : List (TokenType × String) :=
  [(.leftShiftEqual, "<<="), (.rightShiftEqual, ">>="),
    (.plusPlus, "++"), (.minusMinus, "--"), (.plusEqual, "+="),
    (.minusEqual, "-="), (.starEqual, "*="), (.slashEqual, "/="),
    (.ampEqual, "&="), (.pipeEqual, "|="), (.caretEqual, "^="),
    (.equalEqual, "=="), (.bangEqual, "!="), (.lessEqual, "<="),
    (.greaterEqual, ">="), (.ampAmp, "&&"), (.pipePipe, "||"),
    (.leftShift, "<<"), (.rightShift, ">>"),
    (.plus, "+"), (.minus, "-"), (.star, "*"), (.slash, "/"), (.equal, "="),
    (.bang, "!"), (.less, "<"), (.greater, ">"), (.amp, "&"), (.pipe, "|"),
    (.caret, "^"), (.tilde, "~"),
    (.semicolon, ";"), (.lparen, "("), (.rparen, ")"), (.lbrace, "\x7b"),
    (.rbrace, "\x7d"), (.comma, ","), (.dot, ".")]

/-- The table `k_keywords`. -/
def kKeywords : List (TokenType × String) :=
  [(.kwTrue, "true"), (.kwFalse, "false"),
    (.kwI8, "i8"), (.kwI16, "i16"), (.kwI32, "i32"), (.kwI64, "i64"),
    (.kwU8, "u8"), (.kwU16, "u16"), (.kwU32, "u32"), (.kwU64, "u64"),
    (.kwBool, "bool"), (.kwVoid, "void"), (.kwAs, "as"),
    (.kwIf, "if"), (.kwElse, "else"), (.kwWhile, "while"),
    (.kwFn, "fn"), (.kwReturn, "return"),
    (.kwMut, "mut"), (.kwPub, "pub"), (.kwExtern, "extern"),
    (.kwImport, "import")]

/-- `SF_MAX_TOKEN_VALUE_SIZE`. -/
def maxTokenValueSize : Nat :=
  255

/-- `sf_token_type_name`. -/
def TokenType.name (type : TokenType) : String :=
  match type with
  | .identifier => "an identifier"
  | .integer => "an integer"
  | _ =>
      match (kSymbols ++ kKeywords).find? fun spelling => spelling.1 = type with
      | some spelling => spelling.2
      | none => "a token"

/-- `is_digit`. -/
def isDigit (c : Char) : Bool :=
  c ≥ '0' && c ≤ '9'

/-- `is_space`. -/
def isSpace (c : Char) : Bool :=
  c = ' ' || c = '\t' || c = '\n' || c = '\x0b' || c = '\x0c' || c = '\r'

/-- `is_ident_start`. -/
def isIdentStart (c : Char) : Bool :=
  (c ≥ 'a' && c ≤ 'z') || (c ≥ 'A' && c ≤ 'Z') || c = '_'

/-- `is_ident_char`. -/
def isIdentChar (c : Char) : Bool :=
  isIdentStart c || isDigit c

/-- `sf_lexer` without the token list, which the functions below return. -/
structure Lexer where
  rest : List Char
  line : Nat := 1
  col : Nat := 1
  deriving DecidableEq, Repr

namespace Lexer

/-- The current character, NUL at the end of the input. -/
def current (lx : Lexer) : Char :=
  lx.rest.headD '\x00'

/-- The character after the current one. -/
def next (lx : Lexer) : Char :=
  if lx.current = '\x00' then '\x00' else (lx.rest.drop 1).headD '\x00'

/-- Move the cursor inside a line.  The column is an `uint32_t`. -/
def advance (lx : Lexer) (count : Nat) : Lexer :=
  { lx with rest := lx.rest.drop count, col := (lx.col + count) % 2 ^ 32 }

/-- `lexer_span_here`. -/
def spanHere (lx : Lexer) : Span :=
  { line := lx.line, col := lx.col, len := 0 }

end Lexer

/-- The value of a digit, `none` for the source's `-1`. -/
def digitValue (c : Char) (base : Nat) : Option Nat :=
  let digit :=
    if c ≥ '0' && c ≤ '9' then
      some (c.toNat - '0'.toNat)
    else if c ≥ 'a' && c ≤ 'f' then
      some (c.toNat - 'a'.toNat + 10)
    else if c ≥ 'A' && c ≤ 'F' then
      some (c.toNat - 'A'.toNat + 10)
    else
      none
  digit.filter fun digit => digit < base

/-- The running values of the digit loop of `read_number`. -/
structure DigitRun where
  value : Nat
  hasDigit : Bool
  count : Nat
  deriving DecidableEq, Repr

/-- The digit loop of `read_number`.  The accumulator is an
`unsigned long long`, so it is reduced modulo `2 ^ 64` at each digit. -/
def readDigits (base : Nat) : List Char → DigitRun → DigitRun
  | [], run => run
  | c :: rest, run =>
      if c = '\x00' then
        run
      else if c = '_' then
        readDigits base rest { run with count := run.count + 1 }
      else
        match digitValue c base with
        | none => run
        | some digit =>
            readDigits base rest
              { value := (run.value * base + digit) % 2 ^ 64
                hasDigit := true
                count := run.count + 1 }

/-- The base that the first two characters of a numeral select. -/
def numberBase (lx : Lexer) : Nat :=
  if lx.current = '0' then
    if lx.next = 'x' || lx.next = 'X' then
      16
    else if lx.next = 'b' || lx.next = 'B' then
      2
    else
      10
  else
    10

/-- `read_number`, with the lexer state after the characters it read. -/
def readNumber (lx : Lexer) : Token × Lexer :=
  let span := lx.spanHere
  let base := numberBase lx
  let start := if base ≠ 10 then lx.advance 2 else lx
  let run := readDigits base start.rest ⟨0, false, 0⟩
  let stop := start.advance run.count
  if !run.hasDigit || isIdentChar stop.current then
    ({ type := .undefined, span := span }, stop)
  else
    let len := lx.rest.length - stop.rest.length
    ({ type := .integer
       value := toString run.value
       span := { span with len := min len 255 } }, stop)

/-- `resolve_keyword`. -/
def resolveKeyword (value : String) : TokenType :=
  match kKeywords.find? fun spelling => value = spelling.2 with
  | some spelling => spelling.1
  | none => .identifier

/-- `read_identifier`: the whole run is read, and the token keeps as much of
it as its buffer holds. -/
def readIdentifier (lx : Lexer) : Token × Lexer :=
  let run := lx.rest.takeWhile isIdentChar
  let kept := run.take (maxTokenValueSize - 1)
  let value := String.ofList kept
  ({ type := resolveKeyword value
     value := value
     span := { lx.spanHere with len := kept.length } }, lx.advance run.length)

/-- The first entry of `k_symbols` that the text starts with. -/
def findSymbol (text : List Char) : Option (TokenType × String) :=
  kSymbols.find? fun spelling => spelling.2.toList.isPrefixOf text

/-- `read_symbol`. -/
def readSymbol (lx : Lexer) : Token × Lexer :=
  match findSymbol lx.rest with
  | none => ({ type := .undefined, span := lx.spanHere }, lx)
  | some symbol =>
      ({ type := symbol.1
         value := symbol.2
         span := { lx.spanHere with len := symbol.2.length } },
        lx.advance symbol.2.length)

/-- `undefined_run_continues` at the given unread input. -/
def undefinedRunContinues (text : List Char) (number : Bool) : Bool :=
  let c := text.headD '\x00'
  if c = '\x00' || isSpace c then
    false
  else if number then
    isIdentChar c
  else
    !isIdentChar c && (findSymbol text).isNone

/-- The characters of an undefined lexeme after its first one. -/
def undefinedTail (number : Bool) : List Char → List Char
  | [] => []
  | c :: rest =>
      if undefinedRunContinues (c :: rest) number then
        c :: undefinedTail number rest
      else
        []

/-- `lexer_report_undefined`: read the run again from its start, and report
it. -/
def lexerReportUndefined (filename : String) (start : Lexer) :
    Token × Lexer × Diagnostic :=
  let number := isDigit start.current
  let run := start.rest.take 1 ++ undefinedTail number (start.rest.drop 1)
  let kept := run.take (maxTokenValueSize - 1)
  let value := String.ofList kept
  let span := { start.spanHere with len := kept.length }
  ({ type := .undefined, value := value, span := span },
    start.advance run.length,
    { title := "undefined token"
      desc := "unrecognized token '%s' in source file"
      hint := some ("check for typos or invalid characters, and follow the " ++
        "language grammar")
      file := filename
      code := .lexerUndefinedToken
      span := span
      severity := .error
      arguments := [value] })

/-- The tokens read so far, what was logged, and the state. -/
structure Tokenized where
  tokens : List Token
  log : Log
  deriving DecidableEq, Repr

/-- One lexeme at the current character, as the loop body of `sf_tokenize`
reads and emits it. -/
def lexerEmit (filename : String) (lx : Lexer) : Token × Lexer × Log :=
  let c := lx.current
  let read :=
    if isDigit c then
      readNumber lx
    else if isIdentStart c then
      readIdentifier lx
    else
      readSymbol lx
  if read.1.type = .undefined then
    let reported := lexerReportUndefined filename lx
    (reported.1, reported.2.1, [reported.2.2])
  else
    (read.1, read.2, [])

/-- The loop of `sf_tokenize`.  Every iteration consumes a character, so as
much fuel as there are characters is enough. -/
def tokenizeLoop (filename : String) : Nat → Lexer → Tokenized
  | 0, lx => ⟨[{ type := .eof, span := lx.spanHere }], []⟩
  | fuel + 1, lx =>
      if lx.current = '\x00' then
        ⟨[{ type := .eof, span := lx.spanHere }], []⟩
      else if lx.current = '\n' then
        tokenizeLoop filename fuel
          { rest := lx.rest.drop 1, line := (lx.line + 1) % 2 ^ 32, col := 1 }
      else if isSpace lx.current then
        tokenizeLoop filename fuel (lx.advance 1)
      else
        let emitted := lexerEmit filename lx
        let after := tokenizeLoop filename fuel emitted.2.1
        ⟨emitted.1 :: after.tokens, emitted.2.2 ++ after.log⟩

/-- `sf_tokenize`. -/
def tokenize (input : List Char) (filename : String) : Tokenized :=
  tokenizeLoop filename input.length { rest := input }

end Sulfur
