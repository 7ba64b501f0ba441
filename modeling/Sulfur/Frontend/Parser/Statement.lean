import Sulfur.Frontend.Parser.Expression

/-!
# Parsing statements and programs

The statement parsers of `parser_stmt.c` and the top-level loop of
`sf_parse`.
-/

namespace Sulfur

/-- What `sf_parse_top_level` returns: an import node, or a node that becomes
a statement of the program. -/
inductive TopLevel
  | importNode (node : Import)
  | statement (stmt : Stmt)
  deriving Repr

/-- `report_repeated_qual`. -/
def reportRepeatedQual (token : Token) : ParseM Unit :=
  modify fun p => p.report
    { title := "repeated qualifier"
      desc := "declaration has 2 or more occurencies of the '%s' qualifier"
      hint := some "remove all duplicated qualifiers"
      file := p.filename
      code := .parserRepeatedQualifier
      span := token.span
      severity := .warning
      arguments := [token.type.name] }

/-- The loop of `parse_qualifiers`. -/
def parseQualifiersLoop : Nat → Qualifiers → ParseM Qualifiers
  | 0, _ => failure
  | fuel + 1, quals => do
      let token ← parserPeek
      match token.type with
      | .kwMut =>
          if quals.isMutable then
            reportRepeatedQual token
          let _ ← parserAdvance
          parseQualifiersLoop fuel { quals with isMutable := true }
      | .kwPub =>
          if quals.isPublic then
            reportRepeatedQual token
          let _ ← parserAdvance
          parseQualifiersLoop fuel { quals with isPublic := true }
      | .kwExtern =>
          if quals.isExtern then
            reportRepeatedQual token
          let _ ← parserAdvance
          parseQualifiersLoop fuel { quals with isExtern := true }
      | _ => return quals

/-- `parse_qualifiers`. -/
def parseQualifiers (fuel : Nat) : ParseM Qualifiers :=
  parseQualifiersLoop fuel {}

/-- `parse_expr_stmt`. -/
def parseExprStmt (fuel : Nat) : ParseM (Option Stmt) := do
  match ← parseExpression fuel with
  | none =>
      parserRecoverStatement
      return none
  | some expr =>
      if ← parserExpect .semicolon then
        return some (.expression expr)
      else
        parserRecoverStatement
        return none

/-- The optional initialiser of `parse_var_decl`; the outer `none` stands for
its early return. -/
def parseInitialiser (fuel : Nat) : ParseM (Option (Option Expr)) := do
  if ← parserMatch .equal then
    match ← parseExpression fuel with
    | none => return none
    | some value => return some (some value)
  else
    return some none

/-- `parse_var_decl`. -/
def parseVarDecl (fuel : Nat) (qualifiers : Qualifiers) : ParseM (Option Stmt) := do
  match ← parserExpectType "a type keyword" "use any type keyword" with
  | none =>
      parserRecoverStatement
      return none
  | some type =>
      match ← parserExpectIdentifier "an identifier"
          "variable names cannot be reserved keywords, symbols, or numbers" with
      | none =>
          parserRecoverStatement
          return none
      | some nameToken =>
          match ← parseInitialiser fuel with
          | none =>
              parserRecoverStatement
              return none
          | some value =>
              if ← parserExpect .semicolon then
                return some (.varDecl
                  { base := { span := nameToken.span }
                    qualifiers := qualifiers
                    varType := type
                    name := nameToken.value
                    value := value })
              else
                parserRecoverStatement
                return none

/-- The value that an assignment stores: the right-hand side, or for `x op= e`
the tree of `x op e`. -/
def assignedValue (nameToken opToken : Token) (rhs : Expr) : Option Expr :=
  if opToken.type ≠ .equal then
    opToken.type.toBinaryOp.map fun op =>
      .binary { span := opToken.span } op
        (.identifier { span := nameToken.span } nameToken.value 0 0 none) rhs
  else
    some rhs

/-- `parse_var_assign`. -/
def parseVarAssign (fuel : Nat) : ParseM (Option Stmt) := do
  let nameToken ← parserAdvance
  let opToken ← parserAdvance
  match ← parseExpression fuel with
  | none =>
      parserRecoverStatement
      return none
  | some rhs =>
      match assignedValue nameToken opToken rhs with
      | none => return none
      | some value =>
          if ← parserExpect .semicolon then
            return some (.varAssign
              { base := { span := nameToken.span }
                name := nameToken.value
                value := value })
          else
            parserRecoverStatement
            return none

/-- The optional value of `parse_return`; the outer `none` stands for its early
return. -/
def parseReturnValue (fuel : Nat) : ParseM (Option (Option Expr)) := do
  let following ← parserPeek
  if following.type ≠ .semicolon then
    match ← parseExpression fuel with
    | none => return none
    | some value => return some (some value)
  else
    return some none

/-- `parse_return`. -/
def parseReturn (fuel : Nat) : ParseM (Option Stmt) := do
  let token ← parserAdvance
  match ← parseReturnValue fuel with
  | none =>
      parserRecoverStatement
      return none
  | some value =>
      if ← parserExpect .semicolon then
        return some (.returnStmt { span := token.span } value)
      else
        parserRecoverStatement
        return none

/-- The parameter loop of `parse_func_decl`; `none` stands for its early
returns. -/
def parseParameters : Nat → ParseM (Option (List Parameter))
  | 0 => failure
  | fuel + 1 => do
      let qualifiers ← parseQualifiers fuel
      match ← parserExpectType "a type name" "follow the language syntax" with
      | none => return none
      | some type =>
          match ← parserExpectIdentifier "an identifier"
              "follow the language syntax" with
          | none => return none
          | some nameToken =>
              let param : Parameter :=
                { type := type, name := nameToken.value, qualifiers := qualifiers }
              if ← parserMatch .comma then
                match ← parseParameters fuel with
                | none => return none
                | some params => return some (param :: params)
              else
                return some [param]

/-- The return type of `parse_func_decl`, `void` when it is left out. -/
def parseReturnType : ParseM (Option ValueType) := do
  let retToken ← parserPeek
  if retToken.type.isType then
    let _ ← parserAdvance
    return some retToken.type.toType
  else if retToken.type = .lbrace || retToken.type = .semicolon then
    return some .void
  else
    parserReportUnexpected retToken "'\x7b', ';', or type name"
      "follow the language syntax"
    return none

/-- `parse_func_decl` up to the body: the name, the parameters and the return
type.  Every `NULL` of this part follows a `sf_parser_recover_statement`. -/
def parseFuncHeader (fuel : Nat) (qualifiers : Qualifiers) :
    ParseM (Option FuncDecl) := do
  let fnToken ← parserAdvance
  match ← parserExpectIdentifier "a function name"
      "follow the language syntax" with
  | none => return none
  | some nameToken =>
      if ← parserExpect .lparen then
        let following ← parserPeek
        let parameters ←
          (if following.type ≠ .rparen then parseParameters fuel
          else pure (some []))
        match parameters with
        | none => return none
        | some parameters =>
            if ← parserExpect .rparen then
              match ← parseReturnType with
              | none => return none
              | some returnType =>
                  return some
                    { base := { span := fnToken.span }
                      name := nameToken.value
                      qualifiers := qualifiers
                      parameters := parameters
                      returnType := returnType }
            else
              return none
      else
        return none

mutual

/-- `sf_parse_statement`. -/
def parseStatement : Nat → ParseM (Option Stmt)
  | 0 => failure
  | fuel + 1 => do
      let token ← parserPeek
      let nextToken ← parserPeekNext
      if token.type.isType || token.type.isFn || token.type.isQual then
        parseDecl fuel
      else if token.type.isIdent && nextToken.type.isAssign then
        parseVarAssign fuel
      else if token.type.isBlock then
        parseBlock fuel
      else if token.type.isIf then
        parseIf fuel
      else if token.type.isWhile then
        parseWhile fuel
      else if token.type.isReturn then
        parseReturn fuel
      else
        parseExprStmt fuel

/-- `parse_decl`. -/
def parseDecl : Nat → ParseM (Option Stmt)
  | 0 => failure
  | fuel + 1 => do
      let quals ← parseQualifiers fuel
      let token ← parserPeek
      if token.type.isFn then
        parseFuncDecl fuel quals
      else if token.type.isType then
        parseVarDecl fuel quals
      else
        parserReportUnexpected token "a declaration"
          "expected a variable declaration"
        parserRecoverStatement
        return none

/-- `parse_func_decl`. -/
def parseFuncDecl : Nat → Qualifiers → ParseM (Option Stmt)
  | 0, _ => failure
  | fuel + 1, qualifiers => do
      match ← parseFuncHeader fuel qualifiers with
      | none =>
          parserRecoverStatement
          return none
      | some func =>
          let endToken ← parserPeek
          if endToken.type = .lbrace then
            match ← parseBlock fuel with
            | none =>
                parserRecoverStatement
                return none
            | some block => return some (.funcDecl func (some block))
          else if endToken.type = .semicolon then
            let _ ← parserAdvance
            return some (.funcDecl func none)
          else
            parserReportUnexpected endToken "'\x7b' or ';'"
              "follow the language syntax"
            parserRecoverStatement
            return none

/-- `parse_if`. -/
def parseIf : Nat → ParseM (Option Stmt)
  | 0 => failure
  | fuel + 1 => do
      let token ← parserAdvance
      match ← parseExpression fuel with
      | none =>
          parserRecoverStatement
          return none
      | some condition =>
          match ← parseBlock fuel with
          | none =>
              parserRecoverStatement
              return none
          | some branchThen =>
              if ← parserMatch .kwElse then
                let following ← parserPeek
                let branchElse ←
                  (if following.type = .kwIf then parseIf fuel
                  else parseBlock fuel)
                match branchElse with
                | none =>
                    parserRecoverStatement
                    return none
                | some branchElse =>
                    return some (.ifStmt { span := token.span } condition
                      branchThen (some branchElse))
              else
                return some
                  (.ifStmt { span := token.span } condition branchThen none)

/-- `parse_while`. -/
def parseWhile : Nat → ParseM (Option Stmt)
  | 0 => failure
  | fuel + 1 => do
      let token ← parserAdvance
      match ← parseExpression fuel with
      | none =>
          parserRecoverStatement
          return none
      | some condition =>
          match ← parseBlock fuel with
          | none =>
              parserRecoverStatement
              return none
          | some branchDo =>
              return some (.whileStmt { span := token.span } condition branchDo)

/-- `parse_block`. -/
def parseBlock : Nat → ParseM (Option Stmt)
  | 0 => failure
  | fuel + 1 => do
      let start ← parserPeek
      if ← parserExpect .lbrace then
        let statements ← parseBlockLoop fuel
        if ← parserExpect .rbrace then
          return some (.block { span := start.span } statements)
        else
          parserRecoverStatement
          return none
      else
        parserRecoverStatement
        return none

/-- The statement loop of `parse_block`. -/
def parseBlockLoop : Nat → ParseM (List Stmt)
  | 0 => failure
  | fuel + 1 => do
      let token ← parserPeek
      if token.type ≠ .rbrace && token.type ≠ .eof then
        let start := (← get).current
        match ← parseStatement fuel with
        | some stmt => return stmt :: (← parseBlockLoop fuel)
        | none =>
            if (← get).current = start then
              let _ ← parserAdvance
            parseBlockLoop fuel
      else
        return []

end

/-- `IMPORT_PATH_SIZE`. -/
def importPathSize : Nat :=
  512

/-- The path loop of `parse_import`, with the path collected so far. -/
def parseImportLoop : Nat → String → Bool → ParseM (Option String)
  | 0, _, _ => failure
  | fuel + 1, path, expectIdentifier => do
      let hint := "import paths must contain valid identifiers separated by " ++
        "dots, ending with ';'"
      let token ← parserPeek
      if token.type = .semicolon then
        if expectIdentifier then
          parserReportUnexpected token "identifier" hint
          return none
        else
          let _ ← parserAdvance
          return some path
      else if expectIdentifier then
        if token.type ≠ .identifier then
          parserReportUnexpected token "identifier" hint
          return none
        else
          let token ← parserAdvance
          if path.length + token.value.length ≥ importPathSize then
            return none
          else
            parseImportLoop fuel (path ++ token.value) false
      else if token.type ≠ .dot then
        parserReportUnexpected token "'.' or ';'" hint
        return none
      else
        let _ ← parserAdvance
        if path.length + 1 ≥ importPathSize then
          return none
        else
          parseImportLoop fuel (path ++ "/") true

/-- `parse_import`. -/
def parseImport (fuel : Nat) : ParseM (Option Import) := do
  let tokenImport ← parserPeek
  if ← parserExpect .kwImport then
    match ← parseImportLoop fuel "" true with
    | none => return none
    | some path =>
        if path.length + ".slfr".length ≥ importPathSize then
          return none
        else
          return some
            { base := { span := tokenImport.span }, path := path ++ ".slfr" }
  else
    return none

/-- `sf_parse_top_level`. -/
def parseTopLevel (fuel : Nat) : ParseM (Option TopLevel) := do
  let token ← parserPeek
  if token.type.isFn || token.type.isQual then
    match ← parseDecl fuel with
    | some node => return some (.statement node)
    | none =>
        parserRecoverTopLevel
        return none
  else if token.type.isImport then
    match ← parseImport fuel with
    | some node => return some (.importNode node)
    | none =>
        parserRecoverTopLevel
        return none
  else
    modify fun p => p.report
      { title := "unexpected token"
        desc := "token not allowed in top-level"
        hint := some "follow the language grammar"
        file := p.filename
        code := .parserUnexpectedToken
        span := token.span
        severity := .error }
    parserRecoverTopLevel
    return none

/-- What `sf_parse` does with the result of `sf_parse_top_level`. -/
def Program.add (program : Program) : TopLevel → Program
  | .importNode node => { program with imports := program.imports ++ [node] }
  | .statement stmt => { program with statements := program.statements ++ [stmt] }

/-- The loop of `sf_parse`. -/
def parseLoop : Nat → Program → ParseM Program
  | 0, _ => failure
  | fuel + 1, program => do
      let token ← parserPeek
      if token.type ≠ .eof then
        let start := (← get).current
        match ← parseTopLevel fuel with
        | some node => parseLoop fuel (program.add node)
        | none =>
            if (← get).current = start then
              let _ ← parserAdvance
            parseLoop fuel program
      else
        return program

/-- The fuel that `parse` runs on.  A recursion descends through at most
thirteen functions before it consumes a token. -/
def parseFuel (tokens : List Token) : Nat :=
  16 * (tokens.length + 1)

/-- What a run of `sf_parse` returns and logs. -/
structure Parsed where
  program : Program
  log : Log
  deriving Repr

/-- `sf_parse`; `none` only when the fuel runs out. -/
def parse (tokens : List Token) (filename : String) : Option Parsed :=
  if tokens.isEmpty then
    some ⟨{}, []⟩
  else
    (parseLoop (parseFuel tokens) {} { tokens := tokens, filename := filename }).map
      fun result => ⟨result.1, result.2.log⟩

end Sulfur
