import Sulfur.Frontend.Numeral
import Sulfur.Ir.Semantics
import Sulfur.Semantic.Acceptance

/-!
# Literals

The lexer hands on what the accumulator holds, and the range checks of the
analyser see nothing else.  A numeral therefore denotes the number it writes
whenever that number fits the accumulator.
-/

namespace Sulfur

open Ir Word

theorem strtoull_toString {value : Nat} (small : value < 2 ^ 64) :
    strtoull (toString value) = some value := by
  have digits : Nat.ofDigitChars 10 (toString value).toList 0 = value := by
    rw [Nat.toString_eq_repr, Nat.toList_repr, Nat.ofDigitChars_ten_toDigits]
  simp only [strtoull, digits, if_pos small]

/-- Both readers of a text take it for one number. -/
theorem decimal_of_strtoull {text : String} {value : Nat}
    (reads : strtoull text = some value) : decimal text = value ∧ value < 2 ^ 64 := by
  unfold strtoull at reads
  dsimp only at reads
  split at reads
  · rename_i small
    obtain rfl := Option.some.inj reads
    exact ⟨rfl, small⟩
  · cases reads

/-- The tree that the parser builds for a numeral, under a unary minus if it is
negated. -/
def numeralExpr (negated : Bool) (base literalBase : Base) (text : String) :
    Expr :=
  if negated then
    .unary base .negate (.literal literalBase .integer text)
  else
    .literal literalBase .integer text

/-- The number that a numeral writes, with the sign in front of it. -/
def signedValue (negated : Bool) (magnitude : Nat) : Int :=
  if negated then -magnitude else magnitude

/-- The analyser takes the magnitude where it expects a type. -/
def numeralFits (negated : Bool) (expected : ValueType) (magnitude : Nat) : Bool :=
  if negated then
    !expected.isUnsigned &&
      (negatedLiteralTarget expected).signedLiteralFitsNegated magnitude
  else
    (literalTarget expected).uintLiteralFits magnitude

/-- The compiler takes a tree for a number: the number is a value of its type,
running the code of the tree yields it, and so does constant evaluation. -/
structure Expr.Denotes (expr : Expr) (value : Int) : Prop where
  inRange : expr.resolved.InRange value
  lowered : ∀ nextTemp (state : State Unit),
    ((execAll noCalls (generateExpression expr nextTemp).operations state).bind
      fun final => (generateExpression expr nextTemp).result.read final.store) =
        some value
  constant :
    if expr.resolved.isSigned then
      constEvalInt expr = some value
    else
      (constEvalUint expr).map Int.ofNat = some value

/-- An analysis gives a tree that denotes a number, or it logs an error. -/
def ExprAnalysis.Means (analysis : ExprAnalysis) (value : Int) : Prop :=
  if analysis.ok then
    analysis.node.Denotes value
  else
    Log.hadErrors analysis.log

theorem uintLiteralFits_le {type : ValueType} {value : Nat}
    (signed : type.isSigned) (fits : type.uintLiteralFits value) :
    (value : Int) ≤ int64Max := by
  cases type <;>
    simp_all [ValueType.isSigned, ValueType.uintLiteralFits, int64Max] <;> omega

theorem signedLiteralFitsNegated_le {type : ValueType} {magnitude : Nat}
    (fits : type.signedLiteralFitsNegated magnitude) : magnitude ≤ 2 ^ 63 := by
  cases type <;> simp_all [ValueType.signedLiteralFitsNegated] <;> omega

theorem isSigned_of_signedLiteralFitsNegated {type : ValueType} {magnitude : Nat}
    (fits : type.signedLiteralFitsNegated magnitude) : type.isSigned := by
  cases type <;> simp_all [ValueType.signedLiteralFitsNegated, ValueType.isSigned]

/-- A literal that fits its type denotes its number. -/
theorem denotes_literal {base : Base} {text : String} {value : Nat}
    (reads : strtoull text = some value)
    (fits : base.resolved.uintLiteralFits value) :
    (Expr.literal base .integer text).Denotes value := by
  obtain ⟨decimal, small⟩ := decimal_of_strtoull reads
  have inRange : base.resolved.InRange value :=
    ValueType.inRange_of_uintLiteralFits fits small
  refine ⟨inRange, fun nextTemp state => ?_, ?_⟩
  · simp [generateExpression, generateExpressionInto, generateLiteral, execAll,
      Operand.read, decimal, ValueType.wrap_of_inRange inRange]
  · split
    · rename_i signed
      have bound := uintLiteralFits_le signed fits
      simp [constEvalInt, literalMagnitude, reads, bound]
    · simp [constEvalUint, literalMagnitude, reads]

/-- A negated literal that fits its type denotes the negated number. -/
theorem denotes_negated {base literalBase : Base} {text : String} {magnitude : Nat}
    (reads : strtoull text = some magnitude)
    (same : literalBase.resolved = base.resolved)
    (fits : base.resolved.signedLiteralFitsNegated magnitude) :
    (Expr.unary base .negate (.literal literalBase .integer text)).Denotes
      (-magnitude) := by
  obtain ⟨decimal, -⟩ := decimal_of_strtoull reads
  have inRange := ValueType.inRange_neg_of_signedLiteralFitsNegated fits
  have bound := signedLiteralFitsNegated_le fits
  refine ⟨inRange, fun nextTemp state => ?_, ?_⟩
  · -- the minimum of the type reads back as itself before it is negated
    have negated : base.resolved.wrap (-base.resolved.wrap magnitude) = -magnitude :=
      (base.resolved.format.wrap_neg_wrap magnitude).trans
        (ValueType.wrap_of_inRange inRange)
    have read : base.resolved.wrap (-magnitude) = -magnitude :=
      ValueType.wrap_of_inRange inRange
    simp [generateExpression, generateExpressionInto, generateUnary, generateLiteral,
      UnaryOp.isIncrementOrDecrement, destination, unaryOpcode, Operation.exec,
      Operation.result, State.write, Operand.read, Operand.slot, decimal, same,
      negated, read]
  · have signed : (Expr.unary base .negate
        (.literal literalBase .integer text)).resolved.isSigned :=
      isSigned_of_signedLiteralFitsNegated fits
    rw [if_pos signed]
    have constant : negatedMagnitude magnitude = some (-(magnitude : Int)) :=
      if_neg (Nat.not_lt.mpr bound)
    simpa [constEvalInt, literalMagnitude, reads] using constant

/-- What the analysis of a numeral answers for the magnitude that its token
carries. -/
structure ExprAnalysis.Numeral (analysis : ExprAnalysis) (negated : Bool)
    (expected : ValueType) (magnitude : Nat) : Prop where
  ok : analysis.ok = numeralFits negated expected magnitude
  failed : analysis.ok = false → Log.hadErrors analysis.log
  denotes : analysis.ok → analysis.node.Denotes (signedValue negated magnitude)

theorem analyzeLiteral_numeral (s : Semantic) (base : Base) {text : String}
    {magnitude : Nat} (reads : strtoull text = some magnitude)
    (expected : ValueType) :
    (analyzeLiteral s base .integer text expected).Numeral false expected
      magnitude := by
  cases fits : (literalTarget expected).uintLiteralFits magnitude with
  | false =>
      have answer : (analyzeLiteral s base .integer text expected).ok = false := by
        simp [analyzeLiteral, reads, fits]
      refine ⟨answer.trans fits.symm, fun _ => ?_, fun ok => ?_⟩
      · simp [analyzeLiteral, reads, fits]
      · rw [answer] at ok
        cases ok
  | true =>
      have answer : analyzeLiteral s base .integer text expected =
          ⟨true, .literal { base with resolved := literalTarget expected } .integer
            text, []⟩ := by
        simp [analyzeLiteral, reads, fits]
      rw [answer]
      exact ⟨fits.symm, nofun, fun _ => denotes_literal reads fits⟩

theorem analyzeNegatedLiteral_numeral (s : Semantic) (base literalBase : Base)
    {text : String} {magnitude : Nat} (reads : strtoull text = some magnitude)
    (expected : ValueType) :
    (analyzeNegatedLiteral s base literalBase text expected).Numeral true expected
      magnitude := by
  cases unsigned : expected.isUnsigned with
  | true =>
      have refused : expected ≠ .unresolved ∧ expected.isInteger ∧
          !expected.isSigned := by
        revert unsigned
        cases expected <;> decide
      have answer :
          (analyzeNegatedLiteral s base literalBase text expected).ok = false := by
        rw [analyzeNegatedLiteral]
        dsimp only
        rw [if_pos refused]
      refine ⟨by rw [answer, numeralFits, unsigned]; rfl, fun _ => ?_, fun ok => ?_⟩
      · rw [analyzeNegatedLiteral]
        dsimp only
        rw [if_pos refused]
        simp
      · rw [answer] at ok
        cases ok
  | false =>
      have admitted : ¬(expected ≠ .unresolved ∧ expected.isInteger ∧
          !expected.isSigned) := by
        revert unsigned
        cases expected <;> decide
      have fits : numeralFits true expected magnitude =
          (negatedLiteralTarget expected).signedLiteralFitsNegated magnitude := by
        simp [numeralFits, unsigned]
      have tested : negatedLiteralFits text (negatedLiteralTarget expected) =
          (negatedLiteralTarget expected).signedLiteralFitsNegated magnitude := by
        simp [negatedLiteralFits, reads]
      have answer : analyzeNegatedLiteral s base literalBase text expected = _ :=
        if_neg admitted
      rw [tested] at answer
      cases inside :
        (negatedLiteralTarget expected).signedLiteralFitsNegated magnitude with
      | false =>
          rw [inside] at answer
          rw [answer]
          exact ⟨fits.trans inside |>.symm, fun _ => rfl, nofun⟩
      | true =>
          rw [inside] at answer
          rw [answer]
          exact ⟨fits.trans inside |>.symm, nofun,
            fun _ => denotes_negated reads rfl inside⟩

theorem analyzeExpr_numeral (s : Semantic) (negated : Bool) (base literalBase : Base)
    {text : String} {magnitude : Nat} (reads : strtoull text = some magnitude)
    (expected : ValueType) :
    (analyzeExpr s (numeralExpr negated base literalBase text) expected).Numeral
      negated expected magnitude := by
  cases negated with
  | false => exact analyzeLiteral_numeral s literalBase reads expected
  | true => exact analyzeNegatedLiteral_numeral s base literalBase reads expected

/-- The values of a type are below `2 ^ 64` in magnitude. -/
theorem ValueType.InRange.bounds {type : ValueType} {value : Int}
    (range : type.InRange value) : -2 ^ 63 ≤ value ∧ value < 2 ^ 64 := by
  cases type <;>
    simp_all [InRange, format, isSigned, widthBits, Format.inRange_signed_iff,
      Format.inRange_unsigned_iff] <;> omega

/-- A numeral whose token the lexer reads means the number that it writes, with
the sign in front of it, exactly when the accumulator holds that number or the
rest of it does not fit the type. -/
theorem numeral_means_iff {filename : String} {lx stop : Lexer} {token : Token}
    {log : Log} (emitted : lexerEmit filename lx = (token, stop, log))
    (integer : token.type = .integer) {body : List Char}
    (whole : lx.rest = body ++ stop.rest) (negated : Bool) (s : Semantic)
    (base literalBase : Base) (expected : ValueType) :
    (analyzeExpr s (numeralExpr negated base literalBase token.value)
        expected).Means (signedValue negated (writtenValue body)) ↔
      writtenValue body < 2 ^ 64 ∨
        numeralFits negated expected (writtenValue body % 2 ^ 64) = false := by
  obtain ⟨read, start, text⟩ :=
    readNumber_written (readNumber_of_lexerEmit emitted integer) integer
  obtain rfl : read = body := List.append_cancel_right (start.symm.trans whole)
  have reads : strtoull token.value = some (writtenValue read % 2 ^ 64) :=
    text ▸ strtoull_toString (Nat.mod_lt _ (by norm_num))
  obtain ⟨ok, failed, denotes⟩ :=
    analyzeExpr_numeral s negated base literalBase reads expected
  rw [← ok, ExprAnalysis.Means]
  constructor
  · intro means
    rw [or_iff_not_imp_left]
    intro large
    by_contra accepted
    rw [if_pos (by simpa using accepted)] at means
    have bounds := means.inRange.bounds
    cases negated <;> simp only [signedValue, if_true, Bool.false_eq_true, if_false]
      at bounds <;> omega
  · rintro (small | rejected)
    · split
      · rename_i accepted
        have denotes := denotes accepted
        rwa [Nat.mod_eq_of_lt small] at denotes
      · rename_i rejected
        exact failed (by simpa using rejected)
    · rw [if_neg (by simp [rejected])]
      exact failed rejected

/-- A numeral one above the accumulator's range, with what follows it. -/
def overflowing : Lexer :=
  { rest := "18446744073709551616;".toList }

/-- The numeral `18446744073709551616` is taken for 0. -/
theorem numeral_overflow_differs :
    let emitted := lexerEmit "main.su" overflowing
    let s : Semantic := { filename := "main.su" }
    emitted.1.type = .integer ∧
      overflowing.rest = "18446744073709551616".toList ++ emitted.2.1.rest ∧
      (compileFrontend "fn main() i32 { u64 a = 18446744073709551616; return 0; }"
        "main.su" {}).isSome ∧
      (analyzeExpr s (numeralExpr false {} {} emitted.1.value) .u64).ok ∧
      ¬ (analyzeExpr s (numeralExpr false {} {} emitted.1.value) .u64).Means
        (signedValue false (writtenValue "18446744073709551616".toList)) := by
  refine ⟨by decide, by decide, by decide, by decide,
    fun means => ?_⟩
  rw [ExprAnalysis.Means, if_pos (by decide)] at means
  have bounds := means.inRange.bounds
  have written : writtenValue "18446744073709551616".toList = 2 ^ 64 := by
    decide
  rw [written] at bounds
  exact absurd bounds (by decide)

/-- A hexadecimal numeral, with what follows it. -/
def hexadecimal : Lexer :=
  { rest := "0x_7F)".toList }

theorem numeral_means_iff_hexadecimal :
    let s : Semantic := { filename := "main.su" }
    (analyzeExpr s
        (numeralExpr true {} {} (lexerEmit "main.su" hexadecimal).1.value) .i8).Means
        (signedValue true (writtenValue "0x_7F".toList)) ↔
      writtenValue "0x_7F".toList < 2 ^ 64 ∨
        numeralFits true .i8 (writtenValue "0x_7F".toList % 2 ^ 64) = false := by
  have emitted : lexerEmit "main.su" hexadecimal =
    ((lexerEmit "main.su" hexadecimal).1, (lexerEmit "main.su" hexadecimal).2.1,
      (lexerEmit "main.su" hexadecimal).2.2) := rfl
  exact numeral_means_iff emitted (by decide) (by decide) true _ {} {} .i8

end Sulfur
