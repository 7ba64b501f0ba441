import Sulfur.Frontend.Parser.State

/-!
# Parsing expressions

The precedence climbing of `parser_expr.c`.  All functions recurse on a fuel
argument; the loops of the source are recursions of their own.
-/

namespace Sulfur

/-- `sf_binary_level`. -/
structure BinaryLevel where
  ops : List TokenType
  chainable : Bool
  deriving DecidableEq, Repr

/-- The table `k_binary_levels`, the loosest level first. -/
def kBinaryLevels : List BinaryLevel :=
  [⟨[.pipePipe], true⟩,
    ⟨[.ampAmp], true⟩,
    ⟨[.equalEqual, .bangEqual, .less, .lessEqual, .greater, .greaterEqual],
      false⟩,
    ⟨[.pipe], true⟩,
    ⟨[.caret], true⟩,
    ⟨[.amp], true⟩,
    ⟨[.leftShift, .rightShift], true⟩,
    ⟨[.plus, .minus], true⟩,
    ⟨[.star, .slash], true⟩]

/-- `level_has_operator`. -/
def levelHasOperator (level : BinaryLevel) (type : TokenType) : Bool :=
  level.ops.contains type

/-- The token types that begin a literal, with the type the node keeps. -/
def TokenType.toLiteralType : TokenType → Option LiteralType
  | integer => some .integer
  | kwTrue => some .kwTrue
  | kwFalse => some .kwFalse
  | _ => none

/-- The postfix loop of `parse_postfix`. -/
def parsePostfixLoop : Nat → Expr → ParseM (Option Expr)
  | 0, _ => failure
  | fuel + 1, operand => do
      let token ← parserPeek
      if token.type = .plusPlus || token.type = .minusMinus then
        let opToken ← parserAdvance
        match opToken.type.toPostfixOp with
        | none => return none
        | some op =>
            parsePostfixLoop fuel (.unary { span := opToken.span } op operand)
      else
        return some operand

/-- The `as` loop of `parse_cast`. -/
def parseCastLoop : Nat → Expr → ParseM (Option Expr)
  | 0, _ => failure
  | fuel + 1, expr => do
      let token ← parserPeek
      if token.type = .kwAs then
        let asToken ← parserAdvance
        match ← parserExpectType "a type keyword after 'as'"
            "use any type keyword" with
        | none =>
            parserRecoverExpression
            return none
        | some target =>
            parseCastLoop fuel (.cast { span := asToken.span } target expr)
      else
        return some expr

mutual

/-- `sf_parse_expression`. -/
def parseExpression : Nat → ParseM (Option Expr)
  | 0 => failure
  | fuel + 1 => parseBinary fuel 0

/-- `parse_binary`. -/
def parseBinary : Nat → Nat → ParseM (Option Expr)
  | 0, _ => failure
  | fuel + 1, level =>
      match kBinaryLevels[level]? with
      | none => parseCast fuel
      | some info => do
          match ← parseBinary fuel (level + 1) with
          | none => return none
          | some left => parseBinaryLoop fuel level info left

/-- The operator loop of `parse_binary`. -/
def parseBinaryLoop : Nat → Nat → BinaryLevel → Expr → ParseM (Option Expr)
  | 0, _, _, _ => failure
  | fuel + 1, level, info, left => do
      let token ← parserPeek
      if levelHasOperator info token.type then
        let opToken ← parserAdvance
        match ← parseBinary fuel (level + 1) with
        | none => return none
        | some right =>
            match opToken.type.toBinaryOp with
            | none => return none
            | some op =>
                let node := .binary { span := opToken.span } op left right
                if info.chainable then
                  parseBinaryLoop fuel level info node
                else
                  return some node
      else
        return some left

/-- `parse_cast`. -/
def parseCast : Nat → ParseM (Option Expr)
  | 0 => failure
  | fuel + 1 => do
      match ← parseUnary fuel with
      | none => return none
      | some expr => parseCastLoop fuel expr

/-- `parse_unary`. -/
def parseUnary : Nat → ParseM (Option Expr)
  | 0 => failure
  | fuel + 1 => do
      let token ← parserPeek
      match token.type.toUnaryOp with
      | none => parsePostfix fuel
      | some op =>
          let _ ← parserAdvance
          match ← parseUnary fuel with
          | none => return none
          | some operand => return some (.unary { span := token.span } op operand)

/-- `parse_postfix`. -/
def parsePostfix : Nat → ParseM (Option Expr)
  | 0 => failure
  | fuel + 1 => do
      match ← parsePrimary fuel with
      | none => return none
      | some operand => parsePostfixLoop fuel operand

/-- The argument loop of `parse_call`; `none` when an argument is missing. -/
def parseArguments : Nat → ParseM (Option (List Expr))
  | 0 => failure
  | fuel + 1 => do
      match ← parseExpression fuel with
      | none => return none
      | some argument =>
          if ← parserMatch .comma then
            match ← parseArguments fuel with
            | none => return none
            | some arguments => return some (argument :: arguments)
          else
            return some [argument]

/-- `parse_call`, on the token of the callee. -/
def parseCall : Nat → Token → ParseM (Option Expr)
  | 0, _ => failure
  | fuel + 1, nameToken => do
      let _ ← parserAdvance
      let token ← parserPeek
      let arguments ←
        (if token.type ≠ .rparen then parseArguments fuel else pure (some []))
      match arguments with
      | none => return none
      | some arguments =>
          if ← parserExpect .rparen then
            return some (.funcCall { span := nameToken.span }
              { base := { span := nameToken.span }, name := nameToken.value }
              none arguments)
          else
            parserRecoverExpression
            return none

/-- `parse_primary`. -/
def parsePrimary : Nat → ParseM (Option Expr)
  | 0 => failure
  | fuel + 1 => do
      if ← parserMatch .lparen then
        match ← parseExpression fuel with
        | none => return none
        | some expr =>
            if ← parserExpect .rparen then
              return some expr
            else
              parserRecoverExpression
              return none
      else
        let token ← parserPeek
        match token.type.toLiteralType with
        | some literalType =>
            let _ ← parserAdvance
            return some (.literal { span := token.span } literalType token.value)
        | none =>
            if token.type = .identifier then
              let _ ← parserAdvance
              let nextToken ← parserPeek
              if nextToken.type = .lparen then
                parseCall fuel token
              else
                return some
                  (.identifier { span := token.span } token.value 0 0 none)
            else
              parserReportUnexpected token "an expression"
                "check for a missing or misplaced token nearby"
              parserRecoverExpression
              return none

end

end Sulfur
