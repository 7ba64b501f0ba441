import Sulfur.Frontend.Parser.Statement

/-!
# The phrases of the language

The grammar that the source documents, as a relation between a node and the
tokens that spell it.  Parentheses may stand around any expression, qualifiers
come in any order and may be repeated, `void` may be left out as a return type,
and `x op= e` spells the assignment of `x op e`.
-/

namespace Sulfur

/-! ## Operators -/

namespace BinaryOp

/-- The row of the precedence table that an operator stands in, counted from the
loosest one. -/
def precedence : BinaryOp → Nat
  | logicalOr => 0
  | logicalAnd => 1
  | relationalEqual | relationalNotEqual | relationalLess | relationalLessEqual
  | relationalGreater | relationalGreaterEqual => 2
  | bitwiseOr => 3
  | bitwiseXor => 4
  | bitwiseAnd => 5
  | bitwiseLshift | bitwiseRshift => 6
  | add | sub => 7
  | mul | div => 8

/-- The row that the left operand stands in: relational operators are not
chainable, all others associate to the left. -/
def leftPrecedence (op : BinaryOp) : Nat :=
  if op.isRelational then op.precedence + 1 else op.precedence

/-- The token of a binary operator. -/
def token : BinaryOp → TokenType
  | add => .plus
  | sub => .minus
  | mul => .star
  | div => .slash
  | bitwiseAnd => .amp
  | bitwiseOr => .pipe
  | bitwiseXor => .caret
  | bitwiseRshift => .rightShift
  | bitwiseLshift => .leftShift
  | relationalEqual => .equalEqual
  | relationalNotEqual => .bangEqual
  | relationalLess => .less
  | relationalLessEqual => .lessEqual
  | relationalGreater => .greater
  | relationalGreaterEqual => .greaterEqual
  | logicalAnd => .ampAmp
  | logicalOr => .pipePipe

/-- The token of the compound assignment, if the operator has one. -/
def compoundToken : BinaryOp → Option TokenType
  | add => some .plusEqual
  | sub => some .minusEqual
  | mul => some .starEqual
  | div => some .slashEqual
  | bitwiseAnd => some .ampEqual
  | bitwiseOr => some .pipeEqual
  | bitwiseXor => some .caretEqual
  | bitwiseRshift => some .rightShiftEqual
  | bitwiseLshift => some .leftShiftEqual
  | _ => none

end BinaryOp

/-- The rows above the binary operators. -/
def castPrecedence : Nat := 9

/-- An operator in front binds tighter than a cast. -/
def unaryPrecedence : Nat := 10

/-- An operator behind binds tighter than one in front. -/
def postfixPrecedence : Nat := 11

/-- Nothing binds tighter than a literal, a name, a call or parentheses. -/
def primaryPrecedence : Nat := 12

namespace UnaryOp

/-- The token of a prefix operator. -/
def prefixToken : UnaryOp → Option TokenType
  | negate => some .minus
  | bitwiseNot => some .tilde
  | logicalNot => some .bang
  | prefixIncrement => some .plusPlus
  | prefixDecrement => some .minusMinus
  | _ => none

/-- The token of a postfix operator. -/
def postfixToken : UnaryOp → Option TokenType
  | postfixIncrement => some .plusPlus
  | postfixDecrement => some .minusMinus
  | _ => none

end UnaryOp

/-- The token of a literal. -/
def LiteralType.token : LiteralType → TokenType
  | integer => .integer
  | kwTrue => .kwTrue
  | kwFalse => .kwFalse

/-! ## Lists of tokens without substructure -/

/-- The qualifiers that a list of tokens names, in any order. -/
def Qualifiers.ofTokens (tokens : List Token) : Qualifiers where
  isMutable := tokens.any fun token => token.type = .kwMut
  isPublic := tokens.any fun token => token.type = .kwPub
  isExtern := tokens.any fun token => token.type = .kwExtern

/-- The tokens are qualifiers. -/
def AreQualifiers (tokens : List Token) : Prop :=
  ∀ token ∈ tokens, token.type.isQual

/-- A list of one parameter or more. -/
inductive ParametersSpelled : List Parameter → List Token → Prop
  | last {qualTokens : List Token} {typeToken nameToken : Token}
      (areQualifiers : AreQualifiers qualTokens)
      (isType : typeToken.type.isType)
      (isName : nameToken.type = .identifier) :
      ParametersSpelled
        [{ type := typeToken.type.toType
           name := nameToken.value
           qualifiers := .ofTokens qualTokens }]
        (qualTokens ++ [typeToken, nameToken])
  | more {qualTokens : List Token} {typeToken nameToken comma : Token}
      {others : List Parameter} {otherTokens : List Token}
      (areQualifiers : AreQualifiers qualTokens)
      (isType : typeToken.type.isType)
      (isName : nameToken.type = .identifier)
      (isComma : comma.type = .comma)
      (rest : ParametersSpelled others otherTokens) :
      ParametersSpelled
        ({ type := typeToken.type.toType
           name := nameToken.value
           qualifiers := .ofTokens qualTokens } :: others)
        (qualTokens ++ typeToken :: nameToken :: comma :: otherTokens)

/-- The list between the parentheses of a function. -/
inductive ParameterListSpelled : List Parameter → List Token → Prop
  | none : ParameterListSpelled [] []
  | some {parameters : List Parameter} {tokens : List Token}
      (spelled : ParametersSpelled parameters tokens) :
      ParameterListSpelled parameters tokens

/-- A return type, `void` when it is left out. -/
inductive ReturnTypeSpelled : ValueType → List Token → Prop
  | omitted : ReturnTypeSpelled .void []
  | written {token : Token} (isType : token.type.isType) :
      ReturnTypeSpelled token.type.toType [token]

/-- A declaration of a function up to its body. -/
inductive FuncDecl.Spelled : FuncDecl → List Token → Prop
  | mk {qualTokens parameterTokens returnTokens : List Token}
      {fnToken nameToken opening closing : Token}
      {parameters : List Parameter} {returnType : ValueType}
      (areQualifiers : AreQualifiers qualTokens)
      (isFn : fnToken.type = .kwFn)
      (isName : nameToken.type = .identifier)
      (isOpening : opening.type = .lparen)
      (parametersSpelled : ParameterListSpelled parameters parameterTokens)
      (isClosing : closing.type = .rparen)
      (returned : ReturnTypeSpelled returnType returnTokens) :
      FuncDecl.Spelled
        { base := { span := fnToken.span }
          name := nameToken.value
          qualifiers := .ofTokens qualTokens
          parameters := parameters
          returnType := returnType }
        (qualTokens ++ fnToken :: nameToken :: opening :: parameterTokens ++
          closing :: returnTokens)

/-! ## Phrases -/

/-- What a list of tokens may spell: an expression that stands in a row of the
precedence table, the arguments of a call, or some kind of statement. -/
inductive Phrase
  | expression (precedence : Nat) (expr : Expr)
  | arguments (arguments : List Expr)
  | statement (stmt : Stmt)
  | block (stmt : Stmt)
  | conditional (stmt : Stmt)
  | statements (statements : List Stmt)

/-- The grammar.  The type of a token is all that a rule asks of it, and its
text and span are what the node keeps. -/
inductive Spelled : Phrase → List Token → Prop
  /-- A phrase of a tighter row. -/
  | tighter {precedence : Nat} {expr : Expr} {tokens : List Token}
      (loose : precedence < primaryPrecedence)
      (spelled : Spelled (.expression (precedence + 1) expr) tokens) :
      Spelled (.expression precedence expr) tokens
  | binary {op : BinaryOp} {left right : Expr} {leftTokens rightTokens : List Token}
      {opToken : Token}
      (leftSpelled : Spelled (.expression op.leftPrecedence left) leftTokens)
      (isOperator : opToken.type = op.token)
      (rightSpelled : Spelled (.expression (op.precedence + 1) right) rightTokens) :
      Spelled
        (.expression op.precedence (.binary { span := opToken.span } op left right))
        (leftTokens ++ opToken :: rightTokens)
  | cast {operand : Expr} {tokens : List Token} {asToken typeToken : Token}
      (operandSpelled : Spelled (.expression castPrecedence operand) tokens)
      (isAs : asToken.type = .kwAs)
      (isType : typeToken.type.isType) :
      Spelled
        (.expression castPrecedence
          (.cast { span := asToken.span } typeToken.type.toType operand))
        (tokens ++ [asToken, typeToken])
  | prefix_ {op : UnaryOp} {operand : Expr} {opToken : Token} {tokens : List Token}
      (isOperator : op.prefixToken = some opToken.type)
      (operandSpelled : Spelled (.expression unaryPrecedence operand) tokens) :
      Spelled
        (.expression unaryPrecedence (.unary { span := opToken.span } op operand))
        (opToken :: tokens)
  | postfix_ {op : UnaryOp} {operand : Expr} {opToken : Token} {tokens : List Token}
      (operandSpelled : Spelled (.expression postfixPrecedence operand) tokens)
      (isOperator : op.postfixToken = some opToken.type) :
      Spelled
        (.expression postfixPrecedence (.unary { span := opToken.span } op operand))
        (tokens ++ [opToken])
  | literal {literalType : LiteralType} {token : Token}
      (isLiteral : token.type = literalType.token) :
      Spelled
        (.expression primaryPrecedence
          (.literal { span := token.span } literalType token.value))
        [token]
  | identifier {token : Token} (isName : token.type = .identifier) :
      Spelled
        (.expression primaryPrecedence
          (.identifier { span := token.span } token.value 0 0 none))
        [token]
  | call {nameToken opening closing : Token} {arguments : List Expr}
      {tokens : List Token}
      (isName : nameToken.type = .identifier)
      (isOpening : opening.type = .lparen)
      (argumentsSpelled : Spelled (.arguments arguments) tokens)
      (isClosing : closing.type = .rparen) :
      Spelled
        (.expression primaryPrecedence
          (.funcCall { span := nameToken.span }
            { base := { span := nameToken.span }, name := nameToken.value }
            none arguments))
        (nameToken :: opening :: tokens ++ [closing])
  | parenthesized {opening closing : Token} {expr : Expr} {tokens : List Token}
      (isOpening : opening.type = .lparen)
      (spelled : Spelled (.expression 0 expr) tokens)
      (isClosing : closing.type = .rparen) :
      Spelled (.expression primaryPrecedence expr) (opening :: tokens ++ [closing])
  | noArguments : Spelled (.arguments []) []
  | lastArgument {argument : Expr} {tokens : List Token}
      (spelled : Spelled (.expression 0 argument) tokens) :
      Spelled (.arguments [argument]) tokens
  | moreArguments {argument next : Expr} {others : List Expr} {comma : Token}
      {tokens otherTokens : List Token}
      (spelled : Spelled (.expression 0 argument) tokens)
      (isComma : comma.type = .comma)
      (othersSpelled : Spelled (.arguments (next :: others)) otherTokens) :
      Spelled (.arguments (argument :: next :: others))
        (tokens ++ comma :: otherTokens)
  | varDecl {qualTokens : List Token} {typeToken nameToken semicolon : Token}
      (areQualifiers : AreQualifiers qualTokens)
      (isType : typeToken.type.isType)
      (isName : nameToken.type = .identifier)
      (isSemicolon : semicolon.type = .semicolon) :
      Spelled
        (.statement (.varDecl
          { base := { span := nameToken.span }
            qualifiers := .ofTokens qualTokens
            varType := typeToken.type.toType
            name := nameToken.value
            value := none }))
        (qualTokens ++ [typeToken, nameToken, semicolon])
  | varInit {qualTokens : List Token} {typeToken nameToken equal semicolon : Token}
      {value : Expr} {tokens : List Token}
      (areQualifiers : AreQualifiers qualTokens)
      (isType : typeToken.type.isType)
      (isName : nameToken.type = .identifier)
      (isEqual : equal.type = .equal)
      (valueSpelled : Spelled (.expression 0 value) tokens)
      (isSemicolon : semicolon.type = .semicolon) :
      Spelled
        (.statement (.varDecl
          { base := { span := nameToken.span }
            qualifiers := .ofTokens qualTokens
            varType := typeToken.type.toType
            name := nameToken.value
            value := some value }))
        (qualTokens ++ typeToken :: nameToken :: equal :: tokens ++ [semicolon])
  | assign {nameToken equal semicolon : Token} {value : Expr} {tokens : List Token}
      (isName : nameToken.type = .identifier)
      (isEqual : equal.type = .equal)
      (valueSpelled : Spelled (.expression 0 value) tokens)
      (isSemicolon : semicolon.type = .semicolon) :
      Spelled
        (.statement (.varAssign
          { base := { span := nameToken.span }
            name := nameToken.value
            value := value }))
        (nameToken :: equal :: tokens ++ [semicolon])
  | compound {nameToken opToken semicolon : Token} {op : BinaryOp} {rhs : Expr}
      {tokens : List Token}
      (isName : nameToken.type = .identifier)
      (isOperator : op.compoundToken = some opToken.type)
      (rhsSpelled : Spelled (.expression 0 rhs) tokens)
      (isSemicolon : semicolon.type = .semicolon) :
      Spelled
        (.statement (.varAssign
          { base := { span := nameToken.span }
            name := nameToken.value
            value := .binary { span := opToken.span } op
              (.identifier { span := nameToken.span } nameToken.value 0 0 none)
              rhs }))
        (nameToken :: opToken :: tokens ++ [semicolon])
  | returnNothing {token semicolon : Token}
      (isReturn : token.type = .kwReturn)
      (isSemicolon : semicolon.type = .semicolon) :
      Spelled (.statement (.returnStmt { span := token.span } none))
        [token, semicolon]
  | returnValue {token semicolon : Token} {value : Expr} {tokens : List Token}
      (isReturn : token.type = .kwReturn)
      (valueSpelled : Spelled (.expression 0 value) tokens)
      (isSemicolon : semicolon.type = .semicolon) :
      Spelled (.statement (.returnStmt { span := token.span } (some value)))
        (token :: tokens ++ [semicolon])
  | expressionStatement {expr : Expr} {tokens : List Token} {semicolon : Token}
      (spelled : Spelled (.expression 0 expr) tokens)
      (isSemicolon : semicolon.type = .semicolon) :
      Spelled (.statement (.expression expr)) (tokens ++ [semicolon])
  | while_ {token : Token} {condition : Expr} {body : Stmt}
      {conditionTokens bodyTokens : List Token}
      (isWhile : token.type = .kwWhile)
      (conditionSpelled : Spelled (.expression 0 condition) conditionTokens)
      (bodySpelled : Spelled (.block body) bodyTokens) :
      Spelled (.statement (.whileStmt { span := token.span } condition body))
        (token :: conditionTokens ++ bodyTokens)
  | declared {func : FuncDecl} {tokens : List Token} {semicolon : Token}
      (spelled : func.Spelled tokens)
      (isSemicolon : semicolon.type = .semicolon) :
      Spelled (.statement (.funcDecl func none)) (tokens ++ [semicolon])
  | defined {func : FuncDecl} {body : Stmt} {tokens bodyTokens : List Token}
      (spelled : func.Spelled tokens)
      (bodySpelled : Spelled (.block body) bodyTokens) :
      Spelled (.statement (.funcDecl func (some body))) (tokens ++ bodyTokens)
  | ofBlock {stmt : Stmt} {tokens : List Token}
      (spelled : Spelled (.block stmt) tokens) :
      Spelled (.statement stmt) tokens
  | ofConditional {stmt : Stmt} {tokens : List Token}
      (spelled : Spelled (.conditional stmt) tokens) :
      Spelled (.statement stmt) tokens
  | block {opening closing : Token} {statements : List Stmt} {tokens : List Token}
      (isOpening : opening.type = .lbrace)
      (statementsSpelled : Spelled (.statements statements) tokens)
      (isClosing : closing.type = .rbrace) :
      Spelled (.block (.block { span := opening.span } statements))
        (opening :: tokens ++ [closing])
  | ifOnly {token : Token} {condition : Expr} {branchThen : Stmt}
      {conditionTokens thenTokens : List Token}
      (isIf : token.type = .kwIf)
      (conditionSpelled : Spelled (.expression 0 condition) conditionTokens)
      (thenSpelled : Spelled (.block branchThen) thenTokens) :
      Spelled
        (.conditional (.ifStmt { span := token.span } condition branchThen none))
        (token :: conditionTokens ++ thenTokens)
  | ifElse {token elseToken : Token} {condition : Expr} {branchThen branchElse : Stmt}
      {conditionTokens thenTokens elseTokens : List Token}
      (isIf : token.type = .kwIf)
      (conditionSpelled : Spelled (.expression 0 condition) conditionTokens)
      (thenSpelled : Spelled (.block branchThen) thenTokens)
      (isElse : elseToken.type = .kwElse)
      (elseSpelled : Spelled (.block branchElse) elseTokens) :
      Spelled
        (.conditional
          (.ifStmt { span := token.span } condition branchThen (some branchElse)))
        (token :: conditionTokens ++ thenTokens ++ elseToken :: elseTokens)
  | elseIf {token elseToken : Token} {condition : Expr} {branchThen branchElse : Stmt}
      {conditionTokens thenTokens elseTokens : List Token}
      (isIf : token.type = .kwIf)
      (conditionSpelled : Spelled (.expression 0 condition) conditionTokens)
      (thenSpelled : Spelled (.block branchThen) thenTokens)
      (isElse : elseToken.type = .kwElse)
      (elseSpelled : Spelled (.conditional branchElse) elseTokens) :
      Spelled
        (.conditional
          (.ifStmt { span := token.span } condition branchThen (some branchElse)))
        (token :: conditionTokens ++ thenTokens ++ elseToken :: elseTokens)
  | noStatements : Spelled (.statements []) []
  | moreStatements {stmt : Stmt} {others : List Stmt} {tokens otherTokens : List Token}
      (spelled : Spelled (.statement stmt) tokens)
      (othersSpelled : Spelled (.statements others) otherTokens) :
      Spelled (.statements (stmt :: others)) (tokens ++ otherTokens)

/-! ## Programs -/

/-- The path of an import, whose directories are separated by dots. -/
inductive PathSpelled : String → List Token → Prop
  | file {token : Token} (isName : token.type = .identifier) :
      PathSpelled token.value [token]
  | directory {token dot : Token} {path : String} {tokens : List Token}
      (isName : token.type = .identifier)
      (isDot : dot.type = .dot)
      (rest : PathSpelled path tokens) :
      PathSpelled (token.value ++ "/" ++ path) (token :: dot :: tokens)

/-- An import. -/
inductive Import.Spelled : Import → List Token → Prop
  | mk {token semicolon : Token} {path : String} {tokens : List Token}
      (isImport : token.type = .kwImport)
      (pathSpelled : PathSpelled path tokens)
      (isSemicolon : semicolon.type = .semicolon) :
      Import.Spelled { base := { span := token.span }, path := path ++ ".slfr" }
        (token :: tokens ++ [semicolon])

/-- At the top level a declaration begins with a qualifier or with `fn`. -/
def StartsDeclaration (tokens : List Token) : Prop :=
  ∃ token ∈ tokens.head?, token.type.isFn || token.type.isQual

/-- An import, or a declaration at the top level. -/
inductive TopLevel.Spelled : TopLevel → List Token → Prop
  | importNode {node : Import} {tokens : List Token} (spelled : node.Spelled tokens) :
      TopLevel.Spelled (.importNode node) tokens
  | statement {stmt : Stmt} {tokens : List Token}
      (starts : StartsDeclaration tokens)
      (spelled : Sulfur.Spelled (.statement stmt) tokens) :
      TopLevel.Spelled (.statement stmt) tokens

/-- The imports and the declarations of a program in the order of the source. -/
inductive Program.Spelled : Program → List Token → Prop
  | empty : Program.Spelled {} []
  | add {program : Program} {item : TopLevel} {tokens itemTokens : List Token}
      (spelled : program.Spelled tokens)
      (itemSpelled : item.Spelled itemTokens) :
      Program.Spelled (program.add item) (tokens ++ itemTokens)

end Sulfur
